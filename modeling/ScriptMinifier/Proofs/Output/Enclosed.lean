import ScriptMinifier.Proofs.Constant.Values
import ScriptMinifier.Proofs.Naming.LiteralNames
import ScriptMinifier.Proofs.Output.Contained

/-! What a run writes stays inside its blocks.

What is read from a script stays inside its blocks, as far as no comment sign stands in it and its
parameter lists can be read (`Program.Readable`, `enclosed_kept`). Every pass puts names and values
in the place of words or leaves lines out, so the parts stay inside up to the program that is
written (`enclosed_stages`). That program need not read back as itself: a number below zero brings
its sign next to another. A literal that names something stays closed by its own quote when another
name is put in (`closedLiteral_replaceFirstWord`), even right after a backslash. -/
namespace ScriptMinifier

open Naming (Pool newNames renamed)
open Source (Bare ClosedLiteral Uncommented)
open Syntax (Declaration Function Native Parameter isDatatype)
open Text (closeQuote? cutAfter isIdent isQuote isWordChar mark words)

variable {n : Nat} {s t w : Text} {g : Text → Option Text}

/-! ### Parts of a program -/

/-- A value that stays on its line and in its block. -/
structure ValueIn (t : Text) : Prop where
  contained : Contained "endglobals".toList t
  newline : '\n' ∉ t

/-- A parameter list that can be read, whose words may stand in the block of a function. -/
def ListIn (t : Text) : Prop :=
  ∃ qs, Parameter.parseAll? t = some qs ∧ ∀ q ∈ qs, NameIn "endfunction".toList q.type ∧
    NameIn "endfunction".toList q.name

namespace Syntax

/-- A declaration that stays in its block. -/
structure Declaration.Enclosed (d : Declaration) : Prop where
  type : isDatatype d.type = true
  name : NameIn "endglobals".toList d.name
  value : ∀ v ∈ d.value, ValueIn v

/-- A function that stays in its block. -/
structure Function.Enclosed (f : Function) : Prop where
  name : NameIn "endfunction".toList f.name
  result : NameIn "endfunction".toList f.result
  params : ListIn f.params
  body : Contained "endfunction".toList f.body

end Syntax

/-- A program whose parts stay inside their blocks. -/
structure Program.Enclosed (p : Program) : Prop where
  literals : ∀ raw ∈ p.literals.texts, ClosedLiteral raw
  declarations : ∀ d ∈ p.declarations, d.Enclosed
  natives : ∀ n ∈ p.natives, n.Legible
  functions : ∀ f ∈ p.functions, f.Enclosed

theorem ValueIn.replaceWords (hg : Fits g) (ht : Sealed n t) (h : ValueIn t) :
    ValueIn (Text.replaceWords g t) :=
  ⟨h.contained.replaceWords hg (by decide) ht, Sealed.not_mem_replaceWords hg.smooth
    (by decide) h.newline⟩

/-- A body stays in its block when lines of it are left out. -/
theorem Contained.dropLocals {closing : Text} (ht : Sealed n t) (h : Contained closing t)
    (names : List Text) :
    Contained closing (Naming.dropLocals names t) := by
  rw [Naming.dropLocals]
  split
  · exact h
  · have hkept :
        ∀ l ∈ (Text.lines t).filter fun line => !(Syntax.localName? line).any names.contains,
          l ∈ Text.lines t :=
      fun l hl => (List.mem_filter.1 hl).1
    exact .joined (fun l hl => ht.lines l (hkept l hl)) fun l hl => h.lines ht l (hkept l hl)

/-! ### Reading -/

namespace Syntax.Parameter

/-- The words of a parameter list are the types and names in it. -/
theorem words_of_parseAll? {qs : List Parameter} (hmark : mark ∉ t) (h : parseAll? t = some qs) :
    (words t = ["nothing".toList] ∧ qs = []) ∨ words t = qs.flatMap fun q => [q.type, q.name] := by
  have hsealed : Sealed 0 t := .of_not_mem hmark
  rcases parseAll?_eq_some h with ⟨htrim, hnil⟩ | hall
  · refine .inl ⟨?_, hnil⟩
    rw [← hsealed.words_trim, htrim]
    exact Text.words_of_isIdent (by decide)
  · have hpiece : ∀ q piece, parse? piece = some q → words piece = [q.type, q.name] := by
      intro q piece hq
      rw [Text.words_eq_fields fun c hc => ?_, (parse?_eq_some hq).1]
      cases hblank : Text.isBlank c with
      | true => exact .inr rfl
      | false => exact .inl (isWordChar_of_parse? hq hc hblank)
    refine .inr ?_
    rw [← hsealed.words_trim, ← Text.joined_pieces ',' (Text.trim t),
      Sealed.words_joined (by decide) (hsealed.trim.pieces (by decide)), List.flatMap_def,
      List.flatMap_def]
    exact congrArg List.flatten (map_eq_of_forall₂ hall.flip hpiece)

end Syntax.Parameter

theorem Syntax.Declaration.name_mem_words (d : Declaration) : d.name ∈ d.words :=
  List.mem_append_right _ (List.mem_cons_of_mem _ (List.mem_append_right _ List.mem_cons_self))

/-- The value of a declaration ends its text. -/
theorem Syntax.Declaration.value_infix_render {d : Declaration} {v : Text} (hv : v ∈ d.value) :
    v <:+: d.render := by
  rw [Declaration.render_eq]
  cases v with
  | nil => exact List.nil_infix
  | cons c rest =>
    rw [Declaration.assigned, Option.mem_def.1 hv]
    exact ((List.suffix_cons '=' _).trans (List.suffix_append _ _)).isInfix

theorem enclosed_declaration {d : Declaration} (h : d.Legible n) : d.Enclosed := by
  have hwords := h.bare.words
  rw [words_render (n := n) h.regular, List.mem_append, not_or] at hwords
  refine ⟨h.regular.type, ⟨h.regular.name, fun heq => hwords.1 (heq ▸ d.name_mem_words)⟩,
    fun v hv => ?_⟩
  have hpart := Declaration.value_infix_render hv
  refine ⟨⟨⟨?_, fun c hc => h.bare.quotes c (hpart.subset hc)⟩, h.comments.of_part hpart⟩,
    h.regular.newline v hv⟩
  rw [Option.mem_def.1 hv] at hwords
  exact hwords.2

theorem enclosed_function {f : Function} (h : f.Legible n)
    (hparams : (Parameter.parseAll? f.params).isSome = true) :
    f.Enclosed := by
  have hmark : mark ∉ f.params := h.listing.not_mem (by decide) (by decide) (by decide)
  have hname : Sealed n f.name := .of_not_mem (Text.mark_not_mem_of_isIdent h.regular.name)
  have hwords :
      "endfunction".toList ∉
        words (f.name ++ " takes ".toList ++ (f.params ++ " returns ".toList ++ f.result)) :=
    h.header.words
  rw [words_takes hname (.of_not_mem hmark)] at hwords
  simp only [List.mem_append, List.mem_cons, not_or] at hwords
  have hident : ∀ {w : Text}, isIdent w = true → "endfunction".toList ∉ words w →
      NameIn "endfunction".toList w := by
    intro w hw hnot
    refine ⟨hw, ?_⟩
    rintro rfl
    exact hnot (Text.words_of_isIdent hw ▸ List.mem_cons_self)
  refine ⟨hident h.regular.name hwords.1, hident h.regular.result hwords.2.2.2.2, ?_,
    ⟨h.body, h.comments⟩⟩
  obtain ⟨qs, hqs⟩ := Option.isSome_iff_exists.1 hparams
  refine ⟨qs, hqs, fun q hq => ?_⟩
  obtain ⟨htype, hname⟩ := Parameter.isIdent_of_parseAll? hqs q hq
  have hlist : ∀ w ∈ [q.type, q.name], w ≠ "endfunction".toList := by
    rcases Parameter.words_of_parseAll? hmark hqs with ⟨-, rfl⟩ | hparts
    · cases hq
    · rw [hparts] at hwords
      rintro w hw rfl
      exact hwords.2.2.1 (List.mem_flatMap.2 ⟨q, hq, hw⟩)
  exact ⟨⟨htype, hlist _ (by simp)⟩, ⟨hname, hlist _ (by simp)⟩⟩

/-- A program in which no comment sign stands and whose parameter lists can be read. -/
structure Program.Readable (p : Program) : Prop where
  values : ∀ d ∈ p.declarations, ∀ v ∈ d.value, Uncommented v
  bodies : ∀ f ∈ p.functions, Uncommented f.body
  params : ∀ f ∈ p.functions, (Parameter.parseAll? f.params).isSome = true

/-! ### Counting and pruning -/

theorem Program.PartsOf.enclosed {p q : Program} (h : q.PartsOf p) (hp : p.Enclosed) :
    q.Enclosed := by
  refine ⟨h.literals ▸ hp.literals, fun d hd => ?_, h.natives ▸ hp.natives, fun f hf => ?_⟩
  · obtain ⟨d', hd', heq⟩ := h.declarations d hd
    rw [heq]
    exact ⟨(hp.declarations d' hd').type, (hp.declarations d' hd').name,
      (hp.declarations d' hd').value⟩
  · obtain ⟨f', hf', heq⟩ := h.functions f hf
    rw [heq]
    exact ⟨(hp.functions f' hf').name, (hp.functions f' hf').result, (hp.functions f' hf').params,
      (hp.functions f' hf').body⟩

/-- What is kept of a script stays inside its blocks, if it is readable. -/
theorem enclosed_of_partsOf {src : Text} {b : Source.Blocks} {p q : Program} (hmark : mark ∉ src)
    (hb : Source.blocks src = .ok b) (hp : Program.ofBlocks b = .ok p) (hq : q.PartsOf p)
    (h : q.Readable) : q.Enclosed := by
  obtain ⟨hliterals, hdeclarations, hnatives, hfunctions⟩ := Program.ofBlocks_eq_ok.1 hp
  obtain ⟨hglobalsBare, hfunctionsBare, hclosed⟩ := bare_blocks hmark hb
  have hsealed := sealed_blocks hmark hb
  refine ⟨?_, fun d hd => ?_, fun n hn => ?_, fun f hf => ?_⟩
  · rw [hq.literals, hliterals]
    exact hclosed
  · obtain ⟨d', hd', heq⟩ := hq.declarations d hd
    have hcomments : ∀ v ∈ d'.value, Uncommented v := by
      have hvalues := h.values d hd
      rwa [heq] at hvalues
    obtain ⟨htype, hname, hvalue⟩ :=
      enclosed_declaration
        (legible_declaration hsealed.globals hglobalsBare hcomments hdeclarations hd')
    rw [heq]
    exact ⟨htype, hname, hvalue⟩
  · rw [hq.natives] at hn
    obtain ⟨t, -, hparse⟩ := exists_of_mem_right hnatives hn
    obtain ⟨hname, hresult, hlist⟩ := Native.parse_eq_ok hparse
    exact ⟨hname, hresult, hlist⟩
  · obtain ⟨f', hf', heq⟩ := hq.functions f hf
    obtain ⟨t, ht, hparse⟩ := exists_of_mem_right hfunctions hf'
    have hboth : Uncommented f'.body ∧ (Parameter.parseAll? f'.params).isSome = true := by
      have hreadable := And.intro (h.bodies f hf) (h.params f hf)
      rwa [heq] at hreadable
    obtain ⟨hname, hresult, hlist, hbody⟩ :=
      enclosed_function
        (legible_function (hsealed.functions t ht) (hfunctionsBare t ht) hboth.1 hparse hboth.2)
          hboth.2
    rw [heq]
    exact ⟨hname, hresult, hlist, hbody⟩

/-! ### Folding -/

theorem fits_replaceName {name value : Text} (h : ∃ v : Constant.Value, value = v.text) :
    Fits fun w => if w = name then some value else none :=
  fits_of_values fun w r hr => by
    obtain ⟨v, rfl⟩ := h
    rw [Option.ite_none_right_eq_some] at hr
    exact ⟨v, (Option.some.inj hr.2).symm⟩

theorem ValueIn.replaceInTurn {pairs : List (Text × Text)}
    (hpairs : ∀ pair ∈ pairs, ∃ v : Constant.Value, pair.2 = v.text)
    (ht : Sealed n t) (h : ValueIn t) : ValueIn (Constant.replaceInTurn pairs t) := by
  induction pairs generalizing t with
  | nil => exact h
  | cons pair rest ih =>
    rw [List.forall_mem_cons] at hpairs
    have hfits : Fits fun w => if w = pair.1 then some pair.2 else none := fits_replaceName hpairs.1
    have hmark : mark ∉ pair.2 := by
      obtain ⟨v, hv⟩ := hpairs.1
      rw [hv]
      exact Text.not_mem_of_isSmooth (List.all_eq_true.1 v.all_isSmooth_text) (by decide)
    exact ih hpairs.2 (sealed_replaceName hmark ht) (h.replaceWords hfits ht)

theorem fits_foldedValues (p : Program) : Fits (Constant.foldedValues p).find? :=
  fits_of_values fun _ _ hr => Constant.exists_value_of_mem_foldedPairs
    (Text.Dictionary.mem_of_find?_ofPairs hr)

/-- Folding puts values in. -/
theorem enclosed_fold {p : Program} (hp : p.Sealed) (h : p.Enclosed) :
    (Constant.fold p).Enclosed := by
  refine ⟨h.literals, fun d hd => ?_, h.natives, fun f hf => ?_⟩
  · obtain ⟨retained, hsub, heq⟩ := Constant.declarations_fold p
    rw [heq] at hd
    obtain ⟨d', hd', rfl⟩ := List.mem_map.1 hd
    have hmem := hsub.subset hd'
    refine ⟨(h.declarations d' hmem).type, (h.declarations d' hmem).name, fun v hv => ?_⟩
    obtain ⟨u, hu, rfl⟩ := Option.map_eq_some_iff.1 hv
    refine .replaceInTurn (fun pair hpair => ?_) ((hp.declarations d' hmem).value u hu)
      ((h.declarations d' hmem).value u hu)
    exact Constant.exists_value_of_mem_foldedPairs hpair
  · obtain ⟨f', hf', rfl⟩ := List.mem_map.1 hf
    have henclosed := h.functions f' hf'
    exact ⟨henclosed.name, henclosed.result, henclosed.params,
      henclosed.body.replaceWords ((fits_foldedValues p).unless f'.scopedNames.contains) (by decide)
        (hp.functions f' hf').body⟩

/-! ### Literals -/

namespace Source

variable {quote : Char} {inside after : Text}

/-- A run without the quote and without backslashes is passed over. -/
theorem closeQuote?_run (hquote : isQuote quote = true) (hw : ∀ c ∈ w, isWordChar c = true)
    (t : Text) :
    closeQuote? quote (w ++ t) = cutAfter w (closeQuote? quote t) := by
  induction w with
  | nil => cases h : closeQuote? quote t <;> simp [cutAfter, h]
  | cons c rest ih =>
    rw [List.forall_mem_cons] at hw
    have hne : c ≠ quote := by
      rintro rfl
      rw [isQuote_of_isWordChar hw.1] at hquote
      cases hquote
    have hslash : c ≠ '\\' := by
      rintro rfl
      cases hw.1
    rw [List.cons_append, closeQuote?, if_neg hne, ih hw.2, Text.extendCut_cutAfter]
    exact fun _ _ heq => absurd heq hslash

/-- Another word in the place of a word leaves a literal closed, also right after a backslash. -/
theorem closeQuote?_respell {before w v after u : Text} (hquote : isQuote quote = true)
    (hw : ∀ c ∈ w, isWordChar c = true)
    (hwne : w ≠ []) (hv : ∀ c ∈ v, isWordChar c = true) (hvne : v ≠ [])
    (h : closeQuote? quote (before ++ (w ++ (after ++ u))) = some (before ++ (w ++ after), u)) :
    closeQuote? quote (before ++ (v ++ (after ++ u))) = some (before ++ (v ++ after), u) := by
  have hslash : '\\' ≠ quote := by
    rintro rfl
    cases hquote
  have hextend (c : Char) (t rest : Text) (cut : Option (Text × Text))
      (h : Text.extendCut c cut = some (c :: t, rest)) :
      cut = some (t, rest) := by
    obtain ⟨tail, heq, hcut⟩ := Text.extendCut_eq_some.1 h
    rwa [← (List.cons.inj heq).2] at hcut
  match before with
  | [] =>
    rw [List.nil_append, List.nil_append, closeQuote?_run hquote hw] at h
    rw [List.nil_append, List.nil_append, closeQuote?_run hquote hv, Text.cutAfter_eq_some h]
    rfl
  | c :: before =>
    by_cases hc : c = '\\'
    · subst hc
      match before with
      | [] =>
        -- the first character of the word is skipped
        obtain ⟨c, w, rfl⟩ := List.exists_cons_of_ne_nil hwne
        obtain ⟨d, v, rfl⟩ := List.exists_cons_of_ne_nil hvne
        rw [List.forall_mem_cons] at hw hv
        have hrest : closeQuote? quote (w ++ (after ++ u)) = some (w ++ after, u) :=
          hextend c _ u _ (hextend '\\' (c :: (w ++ after)) u _ h)
        rw [closeQuote?_run hquote hw.2] at hrest
        simp only [List.cons_append, List.nil_append]
        rw [closeQuote?, closeQuote?_run hquote hv.2, Text.cutAfter_eq_some hrest]
        rfl
      | c :: before =>
        have hrest :
            closeQuote? quote (before ++ (w ++ (after ++ u))) = some (before ++ (w ++ after), u) :=
          hextend c _ u _ (hextend '\\' (c :: (before ++ (w ++ after))) u _ h)
        simp only [List.cons_append]
        rw [closeQuote?, closeQuote?_respell hquote hw hwne hv hvne hrest]
        rfl
    · have hstep (t : Text) : closeQuote? quote (c :: t) =
          if c = quote then some ([c], t) else Text.extendCut c (closeQuote? quote t) := by
        rw [closeQuote?]
        exact fun _ _ heq => absurd heq hc
      rw [List.cons_append, hstep] at h
      split at h
      · simp [hwne] at h
      · rename_i hne
        have hrest := hextend c (before ++ (w ++ after)) u _ h
        rw [List.cons_append, hstep, if_neg hne, closeQuote?_respell hquote hw hwne hv hvne hrest]
        rfl

theorem closedLiteral_respell {before w v after : Text} (hw : ∀ c ∈ w, isWordChar c = true)
    (hwne : w ≠ [])
    (hv : ∀ c ∈ v, isWordChar c = true) (hvne : v ≠ [])
    (h : ClosedLiteral (before ++ (w ++ after))) :
    ClosedLiteral (before ++ (v ++ after)) := by
  obtain ⟨quote, inside, hraw, hquote, hclose⟩ := h
  cases before with
  | nil =>
    -- a word does not start with a quote
    obtain ⟨c, w, rfl⟩ := List.exists_cons_of_ne_nil hwne
    rw [← (List.cons.inj hraw).1, isQuote_of_isWordChar (hw c List.mem_cons_self)] at hquote
    cases hquote
  | cons c before =>
    obtain ⟨rfl, hinside⟩ := List.cons.inj hraw
    obtain rfl : before ++ (w ++ after) = inside := hinside
    refine ⟨c, before ++ (v ++ after), rfl, hquote, fun t => ?_⟩
    have hold := hclose t
    simp only [List.append_assoc] at hold ⊢
    exact closeQuote?_respell hquote hw hwne hv hvne hold

end Source

namespace Naming

variable {names : Text.Renaming}

theorem replaceFirstWord_of_none {gs : List Text.Segment} (h : ∀ w, .word w ∉ gs) :
    replaceFirstWord names gs = gs.flatMap Text.Segment.text := by
  induction gs with
  | nil => rfl
  | cons g rest ih =>
    have hrest := ih fun w hw => h w (List.mem_cons_of_mem g hw)
    cases g with
    | word w => exact absurd List.mem_cons_self (h w)
    | placeholder t =>
      rw [replaceFirstWord, hrest, List.flatMap_cons]
      exact fun _ h => by cases h
    | other t =>
      rw [replaceFirstWord, hrest, List.flatMap_cons]
      exact fun _ h => by cases h

/-- A literal stays closed when a name is put in. -/
theorem closedLiteral_replaceFirstWord (hnames : GivesWords names) (h : ClosedLiteral t) :
    ClosedLiteral (replaceFirstWord names (Text.segments t)) := by
  cases hname : Usage.literalName? t with
  | none =>
    rw [replaceFirstWord_of_none, Text.flatMap_text_segments]
    · exact h
    · intro w hw
      have hmem : w ∈ words t := List.mem_filterMap.2 ⟨.word w, hw, rfl⟩
      rw [List.head?_eq_none_iff.1 hname] at hmem
      cases hmem
  | some w =>
    obtain ⟨before, after, rfl, hfirst⟩ := exists_firstWord hname
    rw [hfirst.replaced names]
    obtain ⟨hne, hword⟩ : renamed names w ≠ [] ∧ ∀ c ∈ renamed names w, isWordChar c = true := by
      rw [renamed]
      cases hfind : names.find? w with
      | none => exact ⟨hfirst.ne_nil, hfirst.word⟩
      | some new => exact hnames w new hfind
    exact Source.closedLiteral_respell hfirst.word hfirst.ne_nil hword hne h

theorem closedLiteral_renameLiterals (hnames : GivesWords names) (ids : List Nat) {ls : Literals}
    (h : ∀ raw ∈ ls.texts, ClosedLiteral raw) :
    ∀ raw ∈ (renameLiterals names ids ls).texts, ClosedLiteral raw := by
  induction ids generalizing ls with
  | nil => exact h
  | cons id rest ih =>
    rw [renameLiterals, List.foldl_cons]
    split
    · rename_i lit hlit
      refine ih fun raw hraw => ?_
      rcases List.mem_or_eq_of_mem_set hraw with hmem | rfl
      · exact h raw hmem
      · exact closedLiteral_replaceFirstWord hnames (h lit (List.mem_of_getElem? hlit))
    · exact ih h

/-! ### Renaming -/

/-- Renaming puts names in that are no words of the language. -/
theorem enclosed_renameProgram (hnames : GivesFreeNames names.find?) (hwords : GivesWords names)
    {p : Program} (hp : p.Sealed) (h : p.Enclosed) : (renameProgram names p).Enclosed := by
  refine ⟨closedLiteral_renameLiterals hwords _ h.literals, fun d hd => ?_, h.natives,
    fun f hf => ?_⟩
  · obtain ⟨d', hd', rfl⟩ := List.mem_map.1 hd
    refine ⟨(h.declarations d' hd').type, hnames.nameIn (by decide) (h.declarations d' hd').name,
      fun v hv => ?_⟩
    obtain ⟨u, hu, rfl⟩ := Option.map_eq_some_iff.1 hv
    exact ((h.declarations d' hd').value u hu).replaceWords hnames.fits
      ((hp.declarations d' hd').value u hu)
  · obtain ⟨f', hf', rfl⟩ := List.mem_map.1 hf
    have henclosed := h.functions f' hf'
    exact ⟨hnames.nameIn (by decide) henclosed.name, henclosed.result, henclosed.params,
      henclosed.body.replaceWords (hnames.fits.unless f'.scopedNames.contains) (by decide)
        (hp.functions f' hf').body⟩

theorem enclosed_renameGlobals {p : Program} {pool : Pool}
    (hpool : Syntax.keywords ++ Syntax.datatypes ⊆ pool.reserved)
    (hp : p.Sealed) (h : p.Enclosed) : (renameGlobals p pool).program.Enclosed :=
  enclosed_renameProgram (givesFreeNames_deal (fun _ hw => List.mem_append_right _ (hpool hw)) _)
    (givesWords_newNames p pool) hp h

/-- A function whose parameters are written as a run writes them. -/
def Listed (f : Function) : Prop :=
  ∃ qs, Parameter.parseAll? f.params = some qs ∧ f.params = Parameter.renderAll qs

theorem givesFreeNames_dealLocals (params : List Text) (f : Function) (body : Text) :
    GivesFreeNames (dealLocals params f body).find? :=
  givesFreeNames_deal (fun _ hw => List.mem_append_right _ hw) (localOrder params f)

theorem enclosed_renameLocals {f : Function} (hf : f.Sealed n) (h : f.Enclosed) :
    (renameLocals f).function.Enclosed ∧ Listed (renameLocals f).function := by
  obtain ⟨qs, hqs, hlist⟩ := h.params
  rw [renameLocals, hqs]
  have hfree := givesFreeNames_dealLocals (qs.map Parameter.name) f
    (dropLocals (unusedLocals (qs.map Parameter.name) f) f.body)
  simp only
  generalize dealLocals _ f _ = names at hfree ⊢
  have hparse := parseAll?_renamed hfree.idents hqs
  refine ⟨⟨h.name, h.result, ⟨_, hparse, fun q hq => ?_⟩, ?_⟩, ⟨_, hparse, rfl⟩⟩
  · obtain ⟨old, hold, rfl⟩ := List.mem_map.1 hq
    exact ⟨(hlist old hold).1, hfree.nameIn (by decide) (hlist old hold).2⟩
  · exact (h.body.dropLocals hf.body _).replaceWords hfree.fits (by decide)
      (sealed_dropLocals hf.body _)

theorem legible_renameNative {m : Native} (h : m.Legible) : (renameNative m).Legible := by
  refine ⟨h.name, h.result, fun q hq => ?_⟩
  obtain ⟨k, hk, rfl⟩ := List.getElem_of_mem hq
  have hlen := hk
  simp only [renameNative, List.length_zipWith] at hlen
  simp only [renameNative, List.getElem_zipWith]
  refine ⟨(h.params _ (List.getElem_mem _)).1, ?_⟩
  exact Pool.isIdent_of_mem_drawMany
    (List.getElem_mem (Nat.lt_of_lt_of_le hlen (Nat.min_le_right _ _)))

theorem enclosed_renameAllLocals {p : Program} (hp : p.Sealed) (h : p.Enclosed) :
    (renameAllLocals p).Enclosed ∧ ∀ f ∈ (renameAllLocals p).functions, Listed f := by
  have hfunction : ∀ f ∈ (renameAllLocals p).functions, f.Enclosed ∧ Listed f := by
    intro f hf
    obtain ⟨f', hf', rfl⟩ := List.mem_map.1 hf
    exact enclosed_renameLocals (hp.functions f' hf') (h.functions f' hf')
  refine ⟨⟨h.literals, h.declarations, fun m hm => ?_, fun f hf => (hfunction f hf).1⟩,
    fun f hf => (hfunction f hf).2⟩
  obtain ⟨m', hm', rfl⟩ := List.mem_map.1 hm
  exact legible_renameNative (h.natives m' hm')

end Naming

/-! ### Truth values -/

namespace Naming

theorem reserved_drawMany (pool : Pool) (k : Nat) :
    (pool.drawMany k).2.reserved = pool.reserved := by
  induction k generalizing pool with
  | zero => rfl
  | succ k ih => exact ih pool.draw.2

/-- The names that a run has reserved for globals. -/
theorem language_subset_renameGlobals (p : Program) {pool : Pool}
    (hpool : Syntax.keywords ++ Syntax.datatypes ⊆ pool.reserved) :
    Syntax.keywords ++ Syntax.datatypes ⊆ (renameGlobals p pool).pool.reserved := fun _ hw => by
  show _ ∈ (((reserveKept p pool).drawMany (globalOrder p).length).2).reserved
  rw [reserved_drawMany]
  exact List.mem_append_right _ (hpool hw)

end Naming

namespace Output

theorem valueIn_truthWord (h : w ∈ truthWords) : ValueIn w := by
  rw [truthWords, List.mem_cons, List.mem_singleton] at h
  have hwords : ∀ w ∈ truthWords, "endglobals".toList ∉ words w ∧ (∀ c ∈ w, isQuote c = false) ∧
      '/' ∉ w ∧ '\n' ∉ w := by
    decide +kernel
  obtain ⟨hword, hquotes, hslash, hnewline⟩ := hwords w (by simpa [truthWords] using h)
  exact ⟨⟨⟨hword, hquotes⟩, .of_not_mem hslash⟩, hnewline⟩

theorem enclosed_replaceWord {word name : Text} (hword : word ∈ truthWords)
    (hident : isIdent name = true)
    (hname : name ∉ Syntax.keywords ++ Syntax.datatypes) {p : Program} (hp : p.Sealed)
    (h : p.Enclosed) :
    (replaceWord word name p).Enclosed := by
  have hnames : GivesFreeNames fun w => if w = word then some name else none := by
    constructor
    all_goals
      intro w r hr
      obtain rfl := Option.some.inj (Option.ite_none_right_eq_some.1 hr).2
    · exact hident
    · exact hname
  refine ⟨h.literals, List.forall_mem_cons.2
    ⟨⟨?_, ⟨hident, fun heq => hname ?_⟩, fun v hv => ?_⟩, fun d hd => ?_⟩, h.natives,
    fun f hf => ?_⟩
  · show isDatatype "boolean".toList = true
    decide
  · exact (show name = "endglobals".toList from heq) ▸ mem_language_of_mem_closingWords (by decide)
  · exact Option.some.inj hv ▸ valueIn_truthWord hword
  · obtain ⟨d', hd', rfl⟩ := List.mem_map.1 hd
    have henclosed := h.declarations d' hd'
    split
    · exact henclosed
    · refine ⟨henclosed.type, henclosed.name, fun v hv => ?_⟩
      obtain ⟨u, hu, rfl⟩ := Option.map_eq_some_iff.1 hv
      exact (henclosed.value u hu).replaceWords hnames.fits ((hp.declarations d' hd').value u hu)
  · obtain ⟨f', hf', rfl⟩ := List.mem_map.1 hf
    have henclosed := h.functions f' hf'
    exact ⟨henclosed.name, henclosed.result, henclosed.params,
      henclosed.body.replaceWords hnames.fits (by decide) (hp.functions f' hf').body⟩

theorem enclosed_extractWords {ws : List Text} (hws : ∀ w ∈ ws, w ∈ truthWords) {p : Program}
    (hp : p.Sealed) (h : p.Enclosed) (hlisted : ∀ f ∈ p.functions, Naming.Listed f) {pool : Pool}
    (hpool : Syntax.keywords ++ Syntax.datatypes ⊆ pool.reserved) :
    (extractWords p pool ws).program.Enclosed ∧
    ∀ f ∈ (extractWords p pool ws).program.functions, Naming.Listed f := by
  induction ws generalizing p pool with
  | nil => exact ⟨h, hlisted⟩
  | cons word rest ih =>
    rw [List.forall_mem_cons] at hws
    rw [extractWords]
    simp only
    split
    · exact ih hws.2 hp h hlisted hpool
    · have hmark : ∀ word ∈ truthWords, mark ∉ word := by decide
      have hdrawn : pool.draw.1 ∈ (pool.drawMany 1).1 := List.mem_cons_self
      refine ih hws.2 (sealed_replaceWord (hmark word hws.1) (mark_not_mem_draw pool) hp) ?_
        (fun f hf => ?_) hpool
      · exact enclosed_replaceWord hws.1 (Pool.isIdent_of_mem_drawMany hdrawn)
          (Pool.not_mem_language_of_mem_drawMany hpool hdrawn) hp h
      · obtain ⟨f', hf', rfl⟩ := List.mem_map.1 hf
        exact hlisted f' hf'

end Output

/-! ### A run -/

/-- What a run writes stays inside its blocks, if what it keeps does. -/
theorem enclosed_stages {options : Options} (htables : options.tables.Clean) {p : Program}
    (hp : p.Sealed) (h : (stages options p).pruned.Enclosed) :
    (stages options p).extracted.program.Enclosed ∧
    ∀ f ∈ (stages options p).extracted.program.functions, Naming.Listed f := by
  have hall := programs_sealed options htables hp
  have hpruned : (stages options p).pruned.Sealed := hall _ (by simp [Stages.programs])
  have hcounted : (stages options p).counted.Sealed := hall _ (by simp [Stages.programs])
  have hnamed : (stages options p).named.program.Sealed := hall _ (by simp [Stages.programs])
  have hlocalized : (stages options p).localized.Sealed := hall _ (by simp [Stages.programs])
  have hnew : Syntax.keywords ++ Syntax.datatypes ⊆ (Pool.new .globals).reserved :=
    List.Subset.refl _
  have henclosed : (stages options p).counted.Enclosed := by
    rw [counted_stages, folded_stages]
    exact ((partsOf_countDeclarationUses _).trans (partsOf_countCalls _)).enclosed
      (enclosed_fold hpruned h)
  have hrenamed : (stages options p).named.program.Enclosed := by
    rw [named_stages]
    exact Naming.enclosed_renameGlobals hnew hcounted henclosed
  have hreserved : Syntax.keywords ++ Syntax.datatypes ⊆
      (stages options p).named.pool.reserved := by
    rw [named_stages]
    exact Naming.language_subset_renameGlobals _ hnew
  have hlocals : (stages options p).localized.Enclosed ∧
      ∀ f ∈ (stages options p).localized.functions, Naming.Listed f := by
    rw [localized_stages]
    exact Naming.enclosed_renameAllLocals hnamed hrenamed
  rw [extracted_stages, Output.extractTruth]
  exact Output.enclosed_extractWords (fun _ hw => hw) hlocalized hlocals.1 hlocals.2 hreserved

end ScriptMinifier
