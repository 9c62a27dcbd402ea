import ScriptMinifier.Proofs.Naming.History
import ScriptMinifier.Proofs.Naming.Order
import ScriptMinifier.Proofs.Naming.Replacements
import ScriptMinifier.Proofs.Syntax.Recasting
import ScriptMinifier.Proofs.Syntax.Rendering

/-! The names that parameters and locals get.

Renaming inside a function drops the locals that occur nowhere but in their declaration, and
renames what is left: every word of the text that stays is replaced by its image, no two words
get the same one, and what is neither a parameter nor a local keeps its form
(`alphaRenamed_renameLocals`). A local is looked for line by line and counted word by word; the
two agree as long as no placeholder reaches over the end of a line (`Text.Closed`). -/
namespace ScriptMinifier

open Syntax (Declaration Function Parameter localName? isDatatype)
open Text (Segment mark isWordChar isOtherChar isBlank isIdent StartsNoWord words segments fields)

/-! ### Closed placeholders -/

namespace Text

/-- Whether a segment is no placeholder, or one that is closed on its line. -/
def Segment.isClosed : Segment → Bool
  | .placeholder t => t.tail.getLast? = some mark && !t.contains '\n'
  | _ => true

/-- A text all of whose placeholders are closed, each on its line. -/
def Closed (t : Text) : Prop := ∀ s ∈ segments t, s.isClosed = true

instance (t : Text) : Decidable (Closed t) :=
  inferInstanceAs (Decidable (∀ s ∈ segments t, s.isClosed = true))

theorem closed_word {w t : Text} (hne : w ≠ []) (hw : ∀ c ∈ w, isWordChar c = true)
    (ht : StartsNoWord t) :
    Closed (w ++ t) ↔ Closed t := by
  rw [Closed, segments_word hne hw ht, List.forall_mem_cons]
  exact and_iff_right rfl

theorem closed_other {c : Char} (hc : isOtherChar c = true) {t : Text} :
    Closed (c :: t) ↔ Closed t := by
  have hskip (u : Text) (gs : List Segment) :
      (∀ s ∈ Segment.other u :: gs, s.isClosed = true) = ∀ s ∈ gs, s.isClosed = true := by
    rw [List.forall_mem_cons]
    exact propext (and_iff_right rfl)
  exact (segments_skip (k := fun gs => ∀ s ∈ gs, s.isClosed = true) hskip hc t).to_iff

/-- Induction over the words, the other characters and the placeholders of a closed text. -/
theorem Closed.wordwise {motive : Text → Prop} (nil : motive [])
    (other : ∀ c t, isOtherChar c = true → motive t → motive (c :: t))
    (word : ∀ w t, w ≠ [] → (∀ c ∈ w, isWordChar c = true) → StartsNoWord t → motive t →
      motive (w ++ t))
    (placeholder : ∀ inner t, mark ∉ inner → '\n' ∉ inner → motive t →
      motive (mark :: inner ++ [mark] ++ t))
    {t : Text} (h : Closed t) : motive t := by
  induction t using Text.wordwise with
  | nil => exact nil
  | placeholder rest ih =>
    rw [Closed, segments, if_pos rfl, List.forall_mem_cons, Segment.isClosed, Bool.and_eq_true,
      decide_eq_true_iff, Bool.not_eq_true', List.contains_eq_mem, decide_eq_false_iff_not] at h
    obtain ⟨⟨hlast, hline⟩, hrest⟩ := h
    have hmark : mark ∈ rest := by
      rw [← throughMark_append_afterMark rest]
      exact List.mem_append_left _ (List.mem_of_getLast? hlast)
    obtain ⟨inner, t, rfl, hinner⟩ := List.eq_append_cons_of_mem hmark
    rw [throughMark_append hinner] at hline
    rw [afterMark_append hinner] at hrest ih
    have hsplit : mark :: (inner ++ mark :: t) = mark :: inner ++ [mark] ++ t := by simp
    rw [hsplit]
    exact placeholder inner t hinner (fun hn => hline (by simp [hn])) (ih hrest)
  | word w t hne hw ht ih => exact word w t hne hw ht (ih ((closed_word hne hw ht).1 h))
  | other c t hc ih => exact other c t hc (ih ((closed_other hc).1 h))

/-- A text without a separator stands before the first piece of what follows. -/
theorem pieces_append_of_not_mem {sep : Char} {s t first : Text} {rest : List Text} (hs : sep ∉ s)
    (ht : pieces sep t = first :: rest) : pieces sep (s ++ t) = (s ++ first) :: rest := by
  obtain ⟨init, last, first', rest', hleft, hright, hboth⟩ := pieces_append sep s t
  rw [pieces_of_not_mem hs] at hleft
  have hone : [] ++ [s] = init ++ [last] := hleft
  obtain ⟨rfl, hlast⟩ := List.append_inj' hone rfl
  obtain ⟨rfl, -⟩ := List.cons.inj hlast
  obtain ⟨rfl, rfl⟩ := List.cons.inj (ht.symm.trans hright)
  exact hboth

theorem startsNoWord_of_head?_pieces {t first : Text} (ht : StartsNoWord t)
    (h : first ∈ (pieces '\n' t).head?) :
    StartsNoWord first := by
  obtain ⟨piece, rest, hpieces⟩ := List.exists_cons_of_ne_nil (pieces_ne_nil '\n' t)
  rw [hpieces, List.head?_cons, Option.mem_some_iff] at h
  intro c more hfirst
  have hjoined := joined_pieces '\n' t
  rw [hpieces, h, hfirst] at hjoined
  cases rest with
  | nil => exact ht c more (by rw [← hjoined]; simp [joined, List.intercalate])
  | cons second others => exact ht c _ (by rw [← hjoined, joined_cons_cons]; rfl)

/-- A text whose placeholders are closed has the words of its lines. -/
theorem Closed.words_pieces {t : Text} (h : Closed t) :
    (pieces '\n' t).flatMap words = words t := by
  refine Closed.wordwise (motive := fun t => (pieces '\n' t).flatMap words = words t) ?nil ?other
    ?word ?placeholder h
  case nil => simp [pieces, words_nil]
  case other =>
    intro c t hc ih
    obtain ⟨first, rest, hpieces⟩ := List.exists_cons_of_ne_nil (pieces_ne_nil '\n' t)
    rw [words_other hc, ← ih, hpieces]
    by_cases hline : c = '\n'
    · rw [pieces, if_pos hline, hpieces, List.flatMap_cons, words_nil]
      rfl
    · rw [pieces, if_neg hline, hpieces, extendFirst, List.flatMap_cons, words_other hc]
      rfl
  case word =>
    intro w t hne hw hnext ih
    obtain ⟨first, rest, hpieces⟩ := List.exists_cons_of_ne_nil (pieces_ne_nil '\n' t)
    have hline : '\n' ∉ w := fun hn => absurd (hw _ hn) (by decide)
    have hfirst : StartsNoWord first := startsNoWord_of_head?_pieces hnext (by rw [hpieces]; rfl)
    rw [pieces_append_of_not_mem hline hpieces, words_word hne hw hnext, ← ih, hpieces,
      List.flatMap_cons, words_word hne hw hfirst]
    rfl
  case placeholder =>
    intro inner t hmark hline ih
    have hwords : ∀ u, words (mark :: inner ++ [mark] ++ u) = words u := by
      intro u
      rw [words, segments_placeholder hmark]
      rfl
    obtain ⟨first, rest, hpieces⟩ := List.exists_cons_of_ne_nil (pieces_ne_nil '\n' t)
    have hnone : '\n' ∉ mark :: inner ++ [mark] := by simp [hline, show '\n' ≠ mark by decide]
    rw [pieces_append_of_not_mem hnone hpieces, hwords, ← ih, hpieces, List.flatMap_cons, hwords]
    rfl

end Text

/-! ### A local is a word of its line -/

/-- A text whose fields are identifiers is made of words and blanks. -/
theorem Text.word_or_blank_of_fields {t : Text} (h : ∀ f ∈ fields t, isIdent f = true) :
    ∀ c ∈ t, isWordChar c = true ∨ isBlank c = true := by
  intro c hc
  by_cases hblank : isBlank c = true
  · exact .inr hblank
  · obtain ⟨f, hf, hmem⟩ := Text.exists_field_of_mem (by simpa using hblank) hc
    exact .inl (Text.isWordChar_of_isIdent (h f hf) c hmem)

theorem Text.words_of_isIdent_fields {t : Text} (h : ∀ f ∈ fields t, isIdent f = true) :
    words t = fields t ∧ mark ∉ t := by
  have hchars := Text.word_or_blank_of_fields h
  refine ⟨Text.words_eq_fields hchars, fun hmark => ?_⟩
  exact absurd (hchars mark hmark) (by decide)

/-- The left side of a declaration is made of identifiers. -/
theorem isIdent_fields_of_typedName? {left type x : Text} {array : Bool}
    (h : Declaration.typedName? (fields left) = some (type, array, x))
    (htype : isDatatype type = true)
    (hx : isIdent x = true) : ∀ f ∈ fields left, isIdent f = true := by
  rw [Declaration.typedName?_eq_some.1 h]
  exact Declaration.forall_typed (Syntax.isIdent_of_isDatatype htype) (by decide) hx

/-- The words of a declaration's left side, and its name among them. -/
theorem mem_words_of_typedName? {left type x : Text} {array : Bool}
    (h : Declaration.typedName? (fields left) = some (type, array, x))
    (htype : isDatatype type = true) (hx : isIdent x = true) : x ∈ words left ∧ mark ∉ left := by
  obtain ⟨hwords, hmark⟩ := Text.words_of_isIdent_fields (isIdent_fields_of_typedName? h htype hx)
  have hmem : x ∈ fields left := by
    rw [Declaration.typedName?_eq_some.1 h]
    exact List.mem_cons_of_mem _ (List.mem_append_right _ (List.mem_singleton_self x))
  rw [hwords]
  exact ⟨hmem, hmark⟩

/-- What stands before a blank or an equals sign has its words for itself. -/
theorem words_subset_append {s t : Text} (hmark : mark ∉ s)
    (ht : ∀ c ∈ t.head?, isOtherChar c = true) :
    words s ⊆ words (s ++ t) := by
  rw [Text.words_append hmark fun _ _ _ c rest hc => ?_]
  · exact List.subset_append_left _ _
  · rw [hc] at ht
    exact Text.not_isWordChar_of_isOtherChar (ht c rfl)

theorem mem_words_of_localName? {line x : Text} (h : localName? line = some x) :
    x ∈ words line := by
  obtain ⟨rest, type, array, htrim, htyped, htype, hident⟩ := localName?_eq_some.1 h
  obtain ⟨lead, trail, hsplit, hlead, htrail⟩ := Text.exists_trim line
  obtain ⟨hname, hmark⟩ := mem_words_of_typedName? htyped htype hident
  have hblank : ∀ c ∈ trail.head?, isOtherChar c = true := fun c hc =>
    Text.isOtherChar_of_isBlank (htrail c (List.mem_of_mem_head? hc))
  -- What follows the left side starts with the equals sign or is blank.
  obtain ⟨tail, hrest, htail⟩ : ∃ tail, rest ++ trail = (Declaration.sides rest).1 ++ tail ∧
      ∀ c ∈ tail.head?, isOtherChar c = true := by
    rw [Declaration.sides]
    cases hcut : Text.cutAt? '=' rest with
    | none => exact ⟨trail, rfl, hblank⟩
    | some cut =>
      obtain ⟨left, right⟩ := cut
      refine ⟨'=' :: (right ++ trail), ?_, ?_⟩
      · rw [Text.cutAt?_eq_some hcut, List.append_assoc, List.cons_append]
      · intro c hc
        rw [← Option.some.inj hc]
        decide
  have hlocal :
      words ("local ".toList ++ (rest ++ trail)) = "local".toList :: words (rest ++ trail) := by
    have hcons : "local ".toList ++ (rest ++ trail) = "local".toList ++ ' ' :: (rest ++ trail) :=
      rfl
    rw [hcons,
      Text.words_word (by decide) (by decide) (Text.startsNoWord_of_isOtherChar (by decide) _),
      Text.words_other (by decide)]
  rw [hsplit, htrim, List.append_assoc,
    Text.words_others fun c hc => Text.isOtherChar_of_isBlank (hlead c hc), List.append_assoc,
    hlocal, hrest]
  exact List.mem_cons_of_mem _ (words_subset_append hmark htail hname)

/-- A local occurs in the body that declares it, as long as no placeholder reaches over the end of
a line. -/
theorem mem_words_of_mem_localNames {f : Function} (h : Text.Closed f.body) {x : Text}
    (hx : x ∈ f.localNames) :
    x ∈ words f.body := by
  rw [localNames_eq_filterMap] at hx
  obtain ⟨line, hline, hname⟩ := List.mem_filterMap.1 hx
  rw [← h.words_pieces]
  exact List.mem_flatMap.2 ⟨line, hline, mem_words_of_localName? hname⟩

/-! ### What is dropped and what is renamed -/

namespace Naming

variable {f : Function} {name : Text}

/-- The locals that are no parameters and occur once in the body, in their declaration. -/
def onceLocals (f : Function) : List Text :=
  (Text.distinct f.localNames).filter fun x => !f.paramNames.contains x &&
    (words f.body).count x == 1

/-- The parameters, and the locals that occur more than once. -/
def boundNames (f : Function) : List Text :=
  f.paramNames ++ (Text.distinct f.localNames).filter fun x => !f.paramNames.contains x &&
    (words f.body).count x != 1

/-- The text that stays: the lines that do not declare a local that occurs once. -/
def keptText (f : Function) : Text :=
  if onceLocals f = [] then f.body
  else Text.joined '\n'
    ((Text.lines f.body).filter fun line => !(localName? line).any (onceLocals f).contains)

/-- A local is unused exactly when it occurs once. -/
theorem scopedCount_le_zero_iff (h : Text.Closed f.body) (hname : name ∈ f.localNames)
    (hparam : name ∉ f.paramNames) :
    scopedCount f.paramNames f name ≤ 0 ↔ (words f.body).count name = 1 := by
  have hpos : 0 < (words f.body).count name :=
    List.count_pos_iff.2 (mem_words_of_mem_localNames h hname)
  rw [scopedCount, occurrences, if_neg fun hc => hparam (List.contains_iff_mem.1 hc)]
  omega

theorem unusedLocals_eq (h : Text.Closed f.body) : unusedLocals f.paramNames f = onceLocals f := by
  rw [unusedLocals, ownLocals, onceLocals, List.filter_filter]
  refine List.filter_congr fun name hname => ?_
  rw [Bool.and_comm]
  by_cases hparam : name ∈ f.paramNames
  · simp [hparam]
  · have hiff := scopedCount_le_zero_iff h (Text.mem_distinct.1 hname) hparam
    rw [Bool.eq_iff_iff, Bool.and_eq_true, Bool.and_eq_true, decide_eq_true_iff, beq_iff_eq, hiff]

theorem dropLocals_eq (h : Text.Closed f.body) :
    dropLocals (unusedLocals f.paramNames f) f.body = keptText f := by
  rw [unusedLocals_eq h]
  rfl

theorem mem_localOrder (h : Text.Closed f.body) :
    name ∈ localOrder f.paramNames f ↔ name ∈ boundNames f := by
  have hitems : ∀ names : List Text,
      ((names.map fun name => (name, scopedCount f.paramNames f name)).map Prod.fst) = names := by
    intro names
    rw [List.map_map]
    exact List.map_id names
  rw [localOrder, mem_byCount, hitems, List.mem_filter, unusedLocals_eq h, List.mem_append,
    boundNames, List.mem_append, ownLocals, onceLocals]
  simp only [List.contains_eq_mem, List.mem_filter, Text.mem_distinct, Bool.and_eq_true,
    Bool.not_eq_true', decide_eq_false_iff_not, beq_iff_eq, bne_iff_ne]
  tauto

/-! ### New names -/

/-- The pool from which a function's names are dealt: every word that stays and is not renamed is
reserved. -/
def localPool (f : Function) : Pool :=
  (Pool.new .locals).reserve
    ((words (keptText f) ++ words f.params).filter (!(localOrder f.paramNames f).contains ·))

/-- The new names of a function's parameters and locals. -/
def newLocals (f : Function) : Text.Renaming := dealLocals f.paramNames f (keptText f)

theorem mem_deal_of_find? {new : Text} (h : (newLocals f).find? name = some new) :
    (name, new) ∈ ((localPool f).deal (localOrder f.paramNames f)).1 :=
  Text.Dictionary.mem_of_find?_ofPairs h

theorem mem_drawMany_of_find? {new : Text} (h : (newLocals f).find? name = some new) :
    new ∈ ((localPool f).drawMany (localOrder f.paramNames f).length).1 :=
  Pool.mem_drawMany_of_mem_deal (mem_deal_of_find? h)

theorem find?_newLocals_eq_none (h : Text.Closed f.body) :
    (newLocals f).find? name = none ↔ name ∉ boundNames f := by
  rw [newLocals, dealLocals, Text.Dictionary.find?_ofPairs_eq_none, Pool.map_fst_deal,
    mem_localOrder h]

theorem renamed_of_find? {names : Text.Renaming} {new : Text} (h : names.find? name = some new) :
    renamed names name = new := by
  rw [renamed, h]
  rfl

theorem replaceWords_renamed (names : Text.Renaming) (t : Text) :
    Text.replaceWords names.find? t = Text.replaceWords (fun w => some (renamed names w)) t :=
  replaceWords_congr (fun _ => rfl) t

theorem exists_newLocal (h : Text.Closed f.body) (hname : name ∈ boundNames f) :
    ∃ new, (newLocals f).find? name = some new ∧ renamed (newLocals f) name = new := by
  obtain ⟨new, hnew⟩ :=
    Option.ne_none_iff_exists'.1 fun hnone => (find?_newLocals_eq_none h).1 hnone hname
  exact ⟨new, hnew, renamed_of_find? hnew⟩

theorem renamed_of_not_mem (h : Text.Closed f.body) (hname : name ∉ boundNames f) :
    renamed (newLocals f) name = name := by
  rw [renamed, (find?_newLocals_eq_none h).2 hname]
  rfl

/-- A word that stays and is not renamed is no new name. -/
theorem newLocal_ne_of_kept (h : Text.Closed f.body) {w new : Text} (hw : w ∈ words (keptText f))
    (hfree : w ∉ boundNames f) (hnew : (newLocals f).find? name = some new) : new ≠ w := by
  rintro rfl
  refine Pool.not_mem_reserved_of_isFree
    (Pool.isFree_of_mem_drawMany (mem_drawMany_of_find? hnew)) ?_
  refine List.mem_append_left _ (List.mem_filter.2 ⟨List.mem_append_left _ hw, ?_⟩)
  simpa using fun horder => hfree ((mem_localOrder h).1 horder)

/-- A bound name and another word of the text never get the same name. -/
theorem eq_of_renamed_eq (h : Text.Closed f.body) {u v : Text} (hu : u ∈ boundNames f)
    (hv : v ∈ words (keptText f) ++ f.paramNames)
    (heq : renamed (newLocals f) u = renamed (newLocals f) v) : u = v := by
  obtain ⟨new, hfind, hnew⟩ := exists_newLocal h hu
  by_cases hbound : v ∈ boundNames f
  · obtain ⟨new', hfind', hnew'⟩ := exists_newLocal h hbound
    obtain rfl : new = new' := hnew.symm.trans (heq.trans hnew')
    exact Pool.deal_injective (mem_deal_of_find? hfind) (mem_deal_of_find? hfind')
  · have hword : v ∈ words (keptText f) :=
      (List.mem_append.1 hv).resolve_right fun hparam => hbound (List.mem_append_left _ hparam)
    rw [hnew, renamed_of_not_mem h hbound] at heq
    exact absurd heq (newLocal_ne_of_kept h hword hbound hfind)

theorem renamed_injective (h : Text.Closed f.body) {u v : Text}
    (hu : u ∈ words (keptText f) ++ f.paramNames)
    (hv : v ∈ words (keptText f) ++ f.paramNames)
    (heq : renamed (newLocals f) u = renamed (newLocals f) v) : u = v := by
  by_cases hbound : u ∈ boundNames f
  · exact eq_of_renamed_eq h hbound hv heq
  · by_cases hbound' : v ∈ boundNames f
    · exact (eq_of_renamed_eq h hbound' hu heq.symm).symm
    · rwa [renamed_of_not_mem h hbound, renamed_of_not_mem h hbound'] at heq

theorem length_le_of_larger_count (h : Text.Closed f.body) {a b : Text} (ha : a ∈ boundNames f)
    (hb : b ∈ boundNames f) (hlt : scopedCount f.paramNames f b < scopedCount f.paramNames f a) :
    (renamed (newLocals f) a).length ≤ (renamed (newLocals f) b).length := by
  obtain ⟨new, hfind, hnew⟩ := exists_newLocal h ha
  obtain ⟨new', hfind', hnew'⟩ := exists_newLocal h hb
  obtain ⟨m, n, hm, hn, hlength⟩ :=
    length_le_of_deal_byCount (mem_deal_of_find? hfind) (mem_deal_of_find? hfind')
  obtain ⟨_, -, hpair⟩ := List.mem_map.1 hm
  obtain ⟨_, -, hpair'⟩ := List.mem_map.1 hn
  obtain ⟨rfl, rfl⟩ := Prod.ext_iff.1 hpair
  obtain ⟨rfl, rfl⟩ := Prod.ext_iff.1 hpair'
  rw [hnew, hnew']
  exact hlength hlt

/-- A parameter list with its names replaced is read back. -/
theorem parseAll?_renamed {names : Text.Renaming} (hnames : GivesIdents names.find?) {t : Text}
    {params : List Parameter} (h : Parameter.parseAll? t = some params) :
    Parameter.parseAll?
        (Parameter.renderAll (params.map fun q => { q with name := renamed names q.name })) =
      some (params.map fun q => { q with name := renamed names q.name }) := by
  refine Parameter.parseAll?_renderAll fun q hq => ?_
  obtain ⟨old, hold, rfl⟩ := List.mem_map.1 hq
  obtain ⟨htype, hname⟩ := Parameter.isIdent_of_parseAll? h old hold
  exact ⟨htype, hnames.getD hname⟩

/-! ### Renaming inside a function -/

theorem renameLocals_eq (h : Text.Closed f.body) {params : List Parameter}
    (hparse : Parameter.parseAll? f.params = some params) :
    (renameLocals f).dropped = onceLocals f ∧
      (renameLocals f).function =
        { f with
          params := Parameter.renderAll
            (params.map fun q => { q with name := renamed (newLocals f) q.name })
          body := Text.replaceWords (newLocals f).find? (keptText f) } := by
  have hnames : params.map Parameter.name = f.paramNames := by rw [Function.paramNames, hparse]; rfl
  rw [newLocals, ← dropLocals_eq h, ← unusedLocals_eq h, ← hnames, renameLocals, hparse]
  exact ⟨rfl, rfl⟩

/-- What renaming inside a function owes, where `m` takes old words to new ones. -/
structure AlphaRenamed (f : Function) (params : List Parameter) (m : Text → Text)
    (r : LocalRenaming) : Prop where
  /-- The locals that occur once are dropped, with their declarations. -/
  dropped : r.dropped = onceLocals f
  /-- Of the words that stay, only parameters and locals change, -/
  fixed : ∀ w, w ∉ boundNames f → m w = w
  /-- and no two become the same. -/
  injective : ∀ u ∈ words (keptText f) ++ f.paramNames, ∀ v ∈ words (keptText f) ++ f.paramNames,
    m u = m v → u = v
  /-- The text that stays has its words replaced and nothing else. -/
  body : r.function.body = Text.replaceWords (fun w => some (m w)) (keptText f)
  /-- So have the parameters, in the same order and with the same types. -/
  params : Parameter.parseAll? r.function.params = some
    (params.map fun q => { q with name := m q.name })
  /-- The rest of the function stays. -/
  frame : r.function = { f with params := r.function.params, body := r.function.body }
  /-- A new name is no word of the language -/
  language : ∀ w ∈ boundNames f, m w ∉ Syntax.keywords ++ Syntax.datatypes
  /-- and a name of a local, -/
  lower : ∀ w ∈ boundNames f, (m w).any Char.isUpper = false
  /-- and what counts more never gets the longer one. -/
  ranked : ∀ a ∈ boundNames f, ∀ b ∈ boundNames f,
    scopedCount f.paramNames f b < scopedCount f.paramNames f a → (m a).length ≤ (m b).length

/-- **Renaming inside a function renames what it keeps, word by word and without a clash**, in every
function whose parameters can be read and whose placeholders are closed. -/
theorem alphaRenamed_renameLocals (f : Function) (params : List Parameter)
    (hparse : Parameter.parseAll? f.params = some params) (hclosed : Text.Closed f.body) :
    ∃ m, AlphaRenamed f params m (renameLocals f) := by
  obtain ⟨hdropped, hfunction⟩ := renameLocals_eq hclosed hparse
  refine ⟨renamed (newLocals f), ?_⟩
  constructor
  case dropped => exact hdropped
  case fixed => exact fun w hw => renamed_of_not_mem hclosed hw
  case injective => exact fun u hu v hv heq => renamed_injective hclosed hu hv heq
  case body =>
    rw [hfunction, ← replaceWords_renamed]
  case params =>
    rw [hfunction]
    exact parseAll?_renamed (givesIdents_deal (localPool f) (localOrder f.paramNames f)) hparse
  case frame =>
    rw [hfunction]
  case language =>
    intro w hw
    obtain ⟨new, hfind, hnew⟩ := exists_newLocal hclosed hw
    rw [hnew]
    have hreserved : Syntax.keywords ++ Syntax.datatypes ⊆ (localPool f).reserved :=
      Pool.language_subset_reserved .locals [] _
    exact Pool.not_mem_language_of_mem_drawMany hreserved (mem_drawMany_of_find? hfind)
  case lower =>
    intro w hw
    obtain ⟨new, hfind, hnew⟩ := exists_newLocal hclosed hw
    rw [hnew]
    have hscheme : (localPool f).scheme = .locals := rfl
    exact Pool.not_any_isUpper_of_mem_drawMany hscheme (mem_drawMany_of_find? hfind)
  case ranked => exact fun a ha b hb hlt => length_le_of_larger_count hclosed ha hb hlt

/-- A function with two parameters, two locals that are used and one that is only declared. -/
def usingFunction : Function :=
  { name := ['F'], params := "integer n,unit u".toList, result := "nothing".toList, entry := false,
    body := "local integer i=n\nlocal string s=".toList ++ Literal.placeholder 0 ++
      "\nlocal integer j\nset i=i+n\ncall Use(i,s)".toList }

/-- The declaration of `j` goes; `n` and `i` are used most, and `n` comes first. -/
theorem usingFunction_alphaRenamed :
    (renameLocals usingFunction).function.body = "local integer b=a\nlocal string d=".toList ++
      Literal.placeholder 0 ++
        "\nset b=b+a\ncall Use(b,d)".toList ∧
      ∃ m, AlphaRenamed usingFunction [⟨"integer".toList, ['n']⟩, ⟨"unit".toList, ['u']⟩] m
      (renameLocals usingFunction) :=
  ⟨by decide +kernel, alphaRenamed_renameLocals _ _ (by decide +kernel) (by decide +kernel)⟩

end Naming
end ScriptMinifier
