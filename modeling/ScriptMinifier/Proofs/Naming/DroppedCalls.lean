import ScriptMinifier.Proofs.Naming.LocalNames
import ScriptMinifier.Proofs.Text.Renaming

/-! The calls that go with unused locals.

A call is a word that an opening parenthesis follows (`Text.calls`). Renaming inside a function
keeps the calls on the lines that stay. It deletes the declaration of an unused local with all that
stands on the line, so the calls in the values of the deleted declarations are the ones that are
lost (`length_calls_renameLocals`). -/
namespace ScriptMinifier

open Syntax (Declaration Function Parameter localName? isDatatype)
open Text (Segment mark isWordChar isOtherChar isBlank isIdent StartsNoWord segments)

/-! ### Calls -/

namespace Text

/-- Whether segments start with an opening parenthesis. -/
def opens : List Segment → Bool
  | .other t :: _ => t.head? == some '('
  | _ => false

/-- The words that an opening parenthesis follows, in a list of segments. -/
def callsIn : List Segment → List Text
  | [] => []
  | .word w :: rest => if opens rest then w :: callsIn rest else callsIn rest
  | _ :: rest => callsIn rest

/-- The words of a text that an opening parenthesis follows. -/
def calls (t : Text) : List Text := callsIn (segments t)

theorem opens_segments (t : Text) : opens (segments t) = (t.head? == some '(') := by
  cases t with
  | nil =>
    rw [segments]
    rfl
  | cons c rest =>
    by_cases hmark : c = mark
    · subst hmark
      rw [segments, if_pos rfl]
      rfl
    · by_cases hword : isWordChar c = true
      · have hne : c ≠ '(' := by
          rintro rfl
          cases hword
        rw [segments, if_neg hmark, if_pos hword]
        simpa [opens] using hne
      · rw [segments, if_neg hmark, if_neg hword]
        rfl

@[simp] theorem calls_nil : calls [] = [] := by
  rw [calls, segments]
  rfl

theorem calls_word {w t : Text} (hne : w ≠ []) (hw : ∀ c ∈ w, isWordChar c = true)
    (ht : StartsNoWord t) :
    calls (w ++ t) = if t.head? = some '(' then w :: calls t else calls t := by
  rw [calls, segments_word hne hw ht, callsIn, opens_segments]
  simp only [beq_iff_eq]
  rfl

theorem calls_other {c : Char} (hc : isOtherChar c = true) (t : Text) : calls (c :: t) = calls t :=
  segments_skip (k := callsIn) (fun _ _ => rfl) hc t

theorem calls_placeholder {inner : Text} (h : mark ∉ inner) (t : Text) :
    calls (mark :: inner ++ [mark] ++ t) = calls t := by
  rw [calls, segments_placeholder h]
  rfl

/-- A text without an opening parenthesis calls nothing. -/
theorem calls_eq_nil_of_not_mem {t : Text} (h : '(' ∉ t) : calls t = [] := by
  induction t using Text.wordwise with
  | nil => exact calls_nil
  | placeholder rest ih =>
    rw [calls, segments, if_pos rfl]
    refine ih fun hmem => h (List.mem_cons_of_mem _ ?_)
    rw [← throughMark_append_afterMark rest]
    exact List.mem_append_right _ hmem
  | word w t hne hw ht ih =>
    have hrest : '(' ∉ t := fun hmem => h (List.mem_append_right _ hmem)
    rw [calls_word hne hw ht, if_neg fun hhead => hrest (List.mem_of_head? hhead), ih hrest]
  | other c t hc ih =>
    rw [calls_other hc]
    exact ih fun hmem => h (List.mem_cons_of_mem _ hmem)

/-- A renaming renames the calls and keeps their number. -/
theorem calls_replaceWords {f : Text → Option Text} (hf : Wordly f) (t : Text) :
    calls (replaceWords f t) = (calls t).map (replacement f) := by
  rw [calls, segments_replaceWords hf, calls]
  induction segments t with
  | nil => rfl
  | cons s rest ih =>
    have hopens : opens (rest.map (Segment.mapWord (replacement f))) = opens rest := by
      cases rest with
      | nil => rfl
      | cons next more => cases next <;> rfl
    cases s with
    | word w =>
      rw [List.map_cons, Segment.mapWord, callsIn, callsIn, hopens, ih]
      split <;> rfl
    | placeholder u => exact ih
    | other u => exact ih

/-! ### Closed texts -/

theorem closed_nil : Closed [] := by
  rw [Closed, segments]
  exact List.forall_mem_nil _

theorem closed_placeholder {inner t : Text} (hmark : mark ∉ inner) (hline : '\n' ∉ inner)
    (h : Closed t) :
    Closed (mark :: inner ++ [mark] ++ t) := by
  rw [Closed, segments_placeholder hmark]
  refine List.forall_mem_cons.2 ⟨?_, h⟩
  simp [Segment.isClosed, hline, mark]

/-- A text without marks is closed. -/
theorem closed_of_not_mem {t : Text} (h : mark ∉ t) : Closed t := by
  induction t using Text.wordwise with
  | nil => exact closed_nil
  | placeholder => exact absurd List.mem_cons_self h
  | word w t hne hw ht ih =>
    exact (closed_word hne hw ht).2 (ih fun hmem => h (List.mem_append_right _ hmem))
  | other c t hc ih => exact (closed_other hc).2 (ih fun hmem => h (List.mem_cons_of_mem _ hmem))

/-- The lines of a closed text are closed. -/
theorem Closed.of_mem_pieces {t line : Text} (h : Closed t) (hline : line ∈ pieces '\n' t) :
    Closed line := by
  refine Closed.wordwise (motive := fun t => ∀ line ∈ pieces '\n' t, Closed line) ?nil ?other ?word
    ?placeholder h line hline
  case nil =>
    rw [pieces, List.forall_mem_singleton]
    exact closed_nil
  case other =>
    intro c t hc ih
    obtain ⟨first, rest, hpieces⟩ := List.exists_cons_of_ne_nil (pieces_ne_nil '\n' t)
    rw [hpieces] at ih
    rw [pieces, hpieces]
    split
    · exact List.forall_mem_cons.2 ⟨closed_nil, ih⟩
    · rw [List.forall_mem_cons] at ih
      exact List.forall_mem_cons.2 ⟨(closed_other hc).2 ih.1, ih.2⟩
  case word =>
    intro w t hne hw hnext ih
    obtain ⟨first, rest, hpieces⟩ := List.exists_cons_of_ne_nil (pieces_ne_nil '\n' t)
    have hline : '\n' ∉ w := fun hn => absurd (hw _ hn) (by decide)
    have hfirst : StartsNoWord first := startsNoWord_of_head?_pieces hnext (by rw [hpieces]; rfl)
    rw [hpieces, List.forall_mem_cons] at ih
    rw [pieces_append_of_not_mem hline hpieces]
    exact List.forall_mem_cons.2 ⟨(closed_word hne hw hfirst).2 ih.1, ih.2⟩
  case placeholder =>
    intro inner t hmark hline ih
    obtain ⟨first, rest, hpieces⟩ := List.exists_cons_of_ne_nil (pieces_ne_nil '\n' t)
    have hnone : '\n' ∉ mark :: inner ++ [mark] := by simp [hline, show '\n' ≠ mark by decide]
    rw [hpieces, List.forall_mem_cons] at ih
    rw [pieces_append_of_not_mem hnone hpieces]
    exact List.forall_mem_cons.2 ⟨closed_placeholder hmark hline ih.1, ih.2⟩

/-- What stands before the last character of a closed text is closed, when that is no part of a word
or a placeholder. -/
theorem Closed.of_concat {s : Text} {c : Char} (hc : isOtherChar c = true) (h : Closed (s ++ [c])) :
    Closed s := by
  have hne := ne_mark_of_isOtherChar hc
  induction s using Text.wordwise with
  | nil => exact closed_nil
  | placeholder rest ih =>
    by_cases hmem : mark ∈ rest
    · obtain ⟨inner, more, rfl, hinner⟩ := List.eq_append_cons_of_mem hmem
      have hsplit (u : Text) :
          mark :: (inner ++ mark :: u) = mark :: inner ++ [mark] ++ u := by simp
      rw [afterMark_append hinner] at ih
      rw [hsplit, List.append_assoc, Closed, segments_placeholder hinner, List.forall_mem_cons] at h
      rw [hsplit, Closed, segments_placeholder hinner, List.forall_mem_cons]
      exact ⟨h.1, ih h.2⟩
    · -- the placeholder does not end with the text
      have hopen : mark ∉ rest ++ [c] := by simp [hmem, Ne.symm hne]
      rw [Closed, List.cons_append, segments, if_pos rfl, throughMark_of_not_mem hopen,
        List.forall_mem_cons] at h
      simp [Segment.isClosed, hne] at h
  | word w s hw hword hs ih =>
    have hstart : StartsNoWord (s ++ [c]) := by
      by_cases hnil : s = []
      · subst hnil
        exact startsNoWord_of_isOtherChar hc []
      · exact hs.append hnil _
    rw [List.append_assoc, closed_word hw hword hstart] at h
    exact (closed_word hw hword hs).2 (ih h)
  | other d s hd ih =>
    rw [List.cons_append, closed_other hd] at h
    exact (closed_other hd).2 (ih h)

theorem Closed.dropReturn {line : Text} (h : Closed line) : Closed (dropReturn line) := by
  rcases dropReturn_cases line with heq | heq
  · rwa [heq]
  · rw [heq] at h
    exact h.of_concat (by decide)

theorem Closed.of_mem_lines {t line : Text} (h : Closed t) (hline : line ∈ lines t) :
    Closed line := by
  obtain ⟨piece, hpiece, rfl | rfl⟩ := exists_piece_of_mem_lines hline
  · exact h.of_mem_pieces hpiece
  · exact (h.of_mem_pieces hpiece).dropReturn

/-! ### Line by line -/

/-- A reading of texts that goes on behind a blank as at the start of a text. -/
structure Linewise {α : Type} (k : Text → List α) : Prop where
  nil : k [] = []
  append_cons : ∀ {s : Text} {c : Char} {t : Text}, Closed s → isBlank c = true →
    k (s ++ c :: t) = k s ++ k t

namespace Linewise

variable {α : Type} {k : Text → List α}

theorem joined (hk : Linewise k) {ts : List Text} (h : ∀ t ∈ ts, Closed t) :
    k (Text.joined '\n' ts) = ts.flatMap k := by
  match ts with
  | [] => exact hk.nil
  | [t] => simp [Text.joined, List.intercalate]
  | t :: u :: more =>
    rw [List.forall_mem_cons] at h
    rw [joined_cons_cons, hk.append_cons h.1 (by decide), hk.joined h.2]
    rfl

theorem dropReturn (hk : Linewise k) {line : Text} (h : Closed line) :
    k (Text.dropReturn line) = k line := by
  rcases dropReturn_cases line with heq | heq
  · rw [heq]
  · conv => rhs; rw [heq, hk.append_cons h.dropReturn (by decide), hk.nil, List.append_nil]

/-- What is read off a closed text is read off its lines. -/
theorem lines (hk : Linewise k) {t : Text} (h : Closed t) : (Text.lines t).flatMap k = k t := by
  obtain ⟨front, last, hpieces⟩ :=
    List.eq_nil_or_concat' (pieces '\n' t) |>.resolve_left (pieces_ne_nil '\n' t)
  have hclosed : ∀ line ∈ front, Closed line :=
    fun line hline => h.of_mem_pieces (by rw [hpieces]; simp [hline])
  have hlast : (([last] : List Text).filter (· ≠ [])).flatMap k = k last := by
    by_cases hnil : last = [] <;> simp [hnil, hk.nil]
  have hpieces' := hk.joined fun line (hline : line ∈ pieces '\n' t) => h.of_mem_pieces hline
  rw [joined_pieces, hpieces, List.flatMap_append] at hpieces'
  rw [Text.lines, hpieces, hpieces', List.dropLast_concat, List.getLast?_concat,
    List.flatMap_append, List.flatMap_map]
  congr 1
  · exact List.flatMap_congr fun line hline => hk.dropReturn (hclosed line hline)
  · simpa using hlast

end Linewise

/-- The calls of a text and of one after it that starts with no word and no parenthesis. -/
theorem Closed.calls_append {s t : Text} (h : Closed s)
    (ht : ∀ c ∈ t.head?, isOtherChar c = true ∧ c ≠ '(') :
    calls (s ++ t) = calls s ++ calls t := by
  refine Closed.wordwise (motive := fun s => calls (s ++ t) = calls s ++ calls t) ?nil ?other ?word
    ?placeholder h
  case nil => rw [calls_nil, List.nil_append, List.nil_append]
  case other =>
    intro c s hc ih
    rw [List.cons_append, calls_other hc, calls_other hc, ih]
  case word =>
    intro w s hne hw hnext ih
    have hstarts : StartsNoWord (s ++ t) ∧ ((s ++ t).head? = some '(' ↔ s.head? = some '(') := by
      by_cases hnil : s = []
      · subst hnil
        refine ⟨fun c rest heq => ?_, iff_of_false (fun hhead => (ht _ hhead).2 rfl) nofun⟩
        exact not_isWordChar_of_isOtherChar (ht c (by rw [← List.nil_append t, heq]; rfl)).1
      · exact ⟨hnext.append hnil t, by rw [List.head?_append_of_ne_nil _ hnil]⟩
    rw [List.append_assoc, calls_word hne hw hstarts.1, calls_word hne hw hnext, ih]
    simp only [hstarts.2]
    split <;> rfl
  case placeholder =>
    intro inner s hmark hline ih
    rw [List.append_assoc, calls_placeholder hmark, calls_placeholder hmark, ih]

theorem linewise_calls : Linewise calls where
  nil := calls_nil
  append_cons := by
    intro s c t hs hc
    have ho := isOtherChar_of_isBlank hc
    have hopen : c ≠ '(' := by
      rintro rfl
      exact absurd hc (by decide)
    rw [hs.calls_append fun d hd => by rw [← Option.some.inj hd]; exact ⟨ho, hopen⟩, calls_other ho]

theorem linewise_words : Linewise words where
  nil := words_nil
  append_cons := by
    intro s c t hs hc
    have ho := isOtherChar_of_isBlank hc
    refine Closed.wordwise (motive := fun s => words (s ++ c :: t) = words s ++ words t) ?nil ?other
      ?word ?placeholder hs
    case nil => rw [List.nil_append, words_other ho, words_nil, List.nil_append]
    case other =>
      intro d s hd ih
      rw [List.cons_append, words_other hd, words_other hd, ih]
    case word =>
      intro w s hne hw hnext ih
      have hstarts : StartsNoWord (s ++ c :: t) := by
        by_cases hnil : s = []
        · subst hnil
          exact startsNoWord_of_isOtherChar ho t
        · exact hnext.append hnil _
      rw [List.append_assoc, words_word hne hw hstarts, words_word hne hw hnext, ih,
        List.cons_append]
    case placeholder =>
      intro inner s hmark hline ih
      rw [List.append_assoc, words, words, segments_placeholder hmark, segments_placeholder hmark]
      exact ih

end Text

namespace Naming

/-- What a line gives to the local that it declares. -/
def initialValue (line : Text) : Text := (Declaration.sides line).2.getD []

/-- The lines that go with the locals that renaming drops. -/
def droppedLines (f : Function) : List Text :=
  (Text.lines f.body).filter fun line => (localName? line).any (renameLocals f).dropped.contains

/-- What stands before the value of a declaration is words and blanks. -/
theorem sides_of_localName? {line x : Text} (h : localName? line = some x) :
    ∀ c ∈ (Declaration.sides line).1, isWordChar c = true ∨ isBlank c = true := by
  obtain ⟨rest, type, array, htrim, htyped, htype, hident⟩ := localName?_eq_some.1 h
  obtain ⟨lead, trail, hsplit, hlead, htrail⟩ := Text.exists_trim line
  have hleft := Text.word_or_blank_of_fields (isIdent_fields_of_typedName? htyped htype hident)
  have hlocal : ∀ c ∈ "local ".toList, isWordChar c = true ∨ isBlank c = true := by decide
  have hequals {t : Text} (ht : ∀ c ∈ t, isWordChar c = true ∨ isBlank c = true) :
      '=' ∉ t := fun hmem =>
    absurd (ht _ hmem) (by decide)
  rw [hsplit, htrim]
  cases hcut : Text.cutAt? '=' rest with
  | none =>
    rw [Declaration.sides, hcut] at hleft
    have hall : ∀ c ∈ lead ++ ("local ".toList ++ rest) ++ trail, isWordChar c = true ∨
        isBlank c = true := by
      simp only [List.forall_mem_append]
      exact ⟨⟨fun c hc => .inr (hlead c hc), hlocal, hleft⟩, fun c hc => .inr (htrail c hc)⟩
    rwa [Declaration.sides, Text.cutAt?_eq_none.2 (hequals hall)]
  | some cut =>
    obtain ⟨left, right⟩ := cut
    rw [Declaration.sides, hcut] at hleft
    have hall : ∀ c ∈ lead ++ ("local ".toList ++ left), isWordChar c = true ∨
        isBlank c = true := by
      simp only [List.forall_mem_append]
      exact ⟨fun c hc => .inr (hlead c hc), hlocal, hleft⟩
    have hline : lead ++ ("local ".toList ++ rest) ++ trail = lead ++ ("local ".toList ++ left) ++
        '=' :: (right ++ trail) := by
      rw [Text.cutAt?_eq_some hcut]
      simp
    rwa [hline, Declaration.sides, Text.cutAt?_append (hequals hall)]

/-- The calls of a declaration stand in its value. -/
theorem calls_initialValue {line x : Text} (h : localName? line = some x) :
    Text.calls (initialValue line) = Text.calls line := by
  have hleft := sides_of_localName? h
  have hnone {t : Text} (ht : ∀ c ∈ t, isWordChar c = true ∨ isBlank c = true) : Text.calls t = [] ∧
      Text.Closed t :=
    ⟨Text.calls_eq_nil_of_not_mem fun hmem => absurd (ht _ hmem) (by decide),
      Text.closed_of_not_mem fun hmem => absurd (ht _ hmem) (by decide)⟩
  rw [initialValue]
  rw [Declaration.sides] at hleft ⊢
  cases hcut : Text.cutAt? '=' line with
  | none =>
    rw [hcut] at hleft
    rw [(hnone hleft).1]
    exact Text.calls_nil
  | some cut =>
    obtain ⟨left, right⟩ := cut
    rw [hcut] at hleft
    have hequals : ∀ c ∈ ('=' :: right).head?, isOtherChar c = true ∧ c ≠ '(' := fun c hc => by
      rw [← Option.some.inj hc]
      decide
    rw [Text.cutAt?_eq_some hcut, (hnone hleft).2.calls_append hequals, (hnone hleft).1,
      Text.calls_other (by decide)]
    rfl

/-- What is read off a text is read off the lines that stay and the lines that go. -/
theorem perm_dropLocals {α : Type} {k : Text → List α} (hk : Text.Linewise k) (names : List Text)
    {body : Text} (h : Text.Closed body) :
    (k (dropLocals names body) ++
      ((Text.lines body).filter fun line => (localName? line).any names.contains).flatMap k).Perm
      (k body) := by
  rw [dropLocals]
  split
  · rename_i hnil
    have hnone :
        (Text.lines body).filter (fun line => (localName? line).any names.contains) = [] := by
      rw [List.filter_eq_nil_iff, hnil]
      simp [Option.any_eq_true]
    rw [hnone, List.flatMap_nil, List.append_nil]
  · rw [hk.joined fun line hline => h.of_mem_lines (List.mem_filter.1 hline).1, ← hk.lines h,
      ← List.flatMap_append]
    exact (List.perm_append_comm.trans (List.filter_append_perm _ (Text.lines body))).flatMap_right
      k

theorem GivesIdents.wordly {g : Text → Option Text} (hg : GivesIdents g) :
    Text.Wordly g := fun w r h =>
  ⟨Text.ne_nil_of_isIdent (hg w r h), Text.isWordChar_of_isIdent (hg w r h)⟩

/-- **Renaming inside a function loses the calls in the values of the locals it drops, and no
other.** -/
theorem length_calls_renameLocals (f : Function) (h : Text.Closed f.body) :
    (Text.calls (renameLocals f).function.body).length +
        ((droppedLines f).flatMap fun line => Text.calls (initialValue line)).length =
        (Text.calls f.body).length ∧
      ((Text.calls (renameLocals f).function.body).length = (Text.calls f.body).length ↔
        ∀ line ∈ droppedLines f, Text.calls (initialValue line) = []) := by
  have hbody : (Text.calls (renameLocals f).function.body).length =
      (Text.calls (dropLocals (renameLocals f).dropped f.body)).length := by
    unfold renameLocals
    split
    · rfl
    · exact (congrArg List.length
        (Text.calls_replaceWords (GivesIdents.wordly (givesIdents_deal _ _)) _)).trans
          (List.length_map _)
  have hvalues : ((droppedLines f).flatMap fun line => Text.calls (initialValue line)) =
      (droppedLines f).flatMap Text.calls := by
    refine List.flatMap_congr fun line hline => ?_
    obtain ⟨x, hx, -⟩ := (Option.any_eq_true _ _).1 (List.mem_filter.1 hline).2
    exact calls_initialValue hx
  have hcount := (perm_dropLocals Text.linewise_calls (renameLocals f).dropped h).length_eq
  rw [List.length_append, ← hbody] at hcount
  refine ⟨by rwa [hvalues], ?_⟩
  rw [← List.flatMap_eq_nil_iff, hvalues, ← List.length_eq_zero_iff, droppedLines]
  omega

/-- A function without parameters. -/
def plainFunction (body : Text) : Function := .new ['F'] "nothing".toList "nothing".toList body

/-- The unused local here has a number for its value. -/
theorem unusedLocal_keeps_calls :
    (renameLocals (plainFunction "local integer u=5\ncall G(H(1))".toList)).function.body =
      "call G(H(1))".toList ∧
      (Text.calls
        (renameLocals
          (plainFunction "local integer u=5\ncall G(H(1))".toList)).function.body).length =
        (Text.calls "local integer u=5\ncall G(H(1))".toList).length :=
  ⟨by decide +kernel,
    (length_calls_renameLocals (plainFunction "local integer u=5\ncall G(H(1))".toList)
    (by decide +kernel)).2.2 (by decide +kernel)⟩

/-- A call in the value of an unused local is lost. Where a placeholder reaches over the end of the
deleted line, what it hid comes out. -/
theorem unusedLocal_loses_call :
    ((Text.calls "local integer u=H()\ncall G()".toList).length = 2 ∧
      (Text.calls
        (renameLocals
          (plainFunction "local integer u=H()\ncall G()".toList)).function.body).length = 1) ∧
    ((Text.calls "local integer u=\x00\nH()\x00".toList).length = 0 ∧
      (Text.calls
        (renameLocals
          (plainFunction "local integer u=\x00\nH()\x00".toList)).function.body).length = 1) := by
  decide +kernel

end Naming
end ScriptMinifier
