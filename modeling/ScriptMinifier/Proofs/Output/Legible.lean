import ScriptMinifier.Proofs.Layout.Squeezing
import ScriptMinifier.Proofs.Source.Relexing

/-! Programs that can be written and read back.

A program is legible when each part of it reads back as itself and no part of it holds what
would be read as something else: a quote, a comment sign, or the word that closes the block it
stands in. Every program read from a script without marks is legible, once no comment signs
stand in its squeezed texts and its parameter lists can be read (`legible_ofBlocks`). -/
namespace ScriptMinifier

open Text (mark isIdent isQuote isWordChar isBlank words)
open Literal (indexLimit)
open Source (Bare Uncommented ClosedLiteral)
open Layout (squeezeBlock squeezedLines)
open Syntax (Declaration Function Native Parameter Header)

namespace Syntax

/-- A declaration that reads back as itself. -/
structure Declaration.Legible (n : Nat) (d : Declaration) : Prop where
  regular : d.Regular
  sealed : d.Sealed n
  uses : d.uses = 0
  bare : Bare "endglobals".toList d.render
  comments : Uncommented d.render

/-- A native that reads back as itself. -/
structure Native.Legible (n : Native) : Prop where
  name : isIdent n.name = true
  result : isIdent n.result = true
  params : ∀ q ∈ n.params, isIdent q.type = true ∧ isIdent q.name = true

/-- A function that reads back as itself. -/
structure Function.Legible (n : Nat) (f : Function) : Prop where
  regular : f.Regular
  sealed : f.Sealed n
  new : f = Function.new f.name f.params f.result f.body
  listing : Parameter.Listing f.params
  header : Bare "endfunction".toList f.header.text
  body : Bare "endfunction".toList f.body
  comments : Uncommented f.body

end Syntax

/-- A program that reads back as itself. -/
structure Program.Legible (p : Program) : Prop where
  limit : p.literals.size ≤ indexLimit
  literals : ∀ raw ∈ p.literals.texts, ClosedLiteral raw
  declarations : ∀ d ∈ p.declarations, d.Legible p.literals.size
  natives : ∀ n ∈ p.natives, n.Legible
  functions : ∀ f ∈ p.functions, f.Legible p.literals.size
  marks :
    (p.declarations.map fun d => marks d.render).sum +
      (p.functions.map fun f => ScriptMinifier.marks f.body).sum ≤
    2 * p.literals.size

/-! ### Texts without comments -/

theorem Source.Uncommented.of_not_mem {t : Text} (h : '/' ∉ t) : Uncommented t := by
  constructor <;> intro hpart <;> exact h (hpart.subset (by simp))

/-- Two characters side by side do not lie across a third. -/
theorem infix_of_append_cons {a b c : Char} (ha : a ≠ c) (hb : b ≠ c) {s t : Text}
    (h : [a, b] <:+: s ++ c :: t) :
    [a, b] <:+: s ∨ [a, b] <:+: t := by
  induction s with
  | nil =>
    rcases List.infix_cons_iff.1 h with hprefix | hpart
    · exact absurd (List.cons_prefix_cons.1 hprefix).1 ha
    · exact .inr hpart
  | cons d rest ih =>
    rcases List.infix_cons_iff.1 h with hprefix | hpart
    · obtain ⟨rfl, hnext⟩ := List.cons_prefix_cons.1 hprefix
      cases rest with
      | nil => exact absurd (List.cons_prefix_cons.1 hnext).1 hb
      | cons e more =>
        obtain ⟨rfl, -⟩ := List.cons_prefix_cons.1 hnext
        exact .inl ⟨[], more, rfl⟩
    · exact (ih hpart).imp_left fun hrest => hrest.trans (List.suffix_cons d rest).isInfix

theorem Source.Uncommented.append_cons {c : Char} (hslash : c ≠ '/') (hstar : c ≠ '*') {s t : Text}
    (hs : Uncommented s) (ht : Uncommented t) : Uncommented (s ++ c :: t) := by
  constructor <;> intro hpart
  · exact (infix_of_append_cons (Ne.symm hslash) (Ne.symm hslash) hpart).elim hs.1 ht.1
  · exact (infix_of_append_cons (Ne.symm hslash) (Ne.symm hstar) hpart).elim hs.2 ht.2

theorem Source.Uncommented.ended {ls : List Text} (h : ∀ l ∈ ls, Uncommented l) :
    Uncommented (Text.ended ls) := by
  induction ls with
  | nil => exact .of_not_mem List.not_mem_nil
  | cons l rest ih =>
    rw [List.forall_mem_cons] at h
    rw [Text.ended_cons]
    exact .append_cons (by decide) (by decide) h.1 (ih h.2)

/-! ### Squeezed texts -/

section Squeezed

variable {n : Nat} {closing t : Text}

theorem infix_joined (sep : Char) {ts : List Text} (h : t ∈ ts) : t <:+: Text.joined sep ts := by
  match ts with
  | [u] =>
    rw [List.mem_singleton.1 h]
    simp [Text.joined, List.intercalate]
  | u :: v :: more =>
    rw [Text.joined_cons_cons]
    rcases List.mem_cons.1 h with rfl | h
    · exact (List.prefix_append _ _).isInfix
    · refine (infix_joined sep h).trans (List.IsSuffix.isInfix ?_)
      exact (List.suffix_cons sep _).trans (List.suffix_append u _)

theorem mem_squeezeBlock {c : Char} (h : c ∈ squeezeBlock t) : c = '\n' ∨ c = ' ' ∨ c ∈ t := by
  by_cases hc : c = '\n'
  · exact .inl hc
  obtain ⟨line, hline, hmem⟩ := Text.exists_piece_of_mem hc h
  by_cases hnil : squeezedLines t = []
  · rw [squeezeBlock, hnil] at h
    cases h
  rw [squeezeBlock,
    Text.pieces_joined hnil fun _ hl => Layout.newline_not_mem_squeezedLines hl] at hline
  obtain ⟨piece, hpiece, rfl⟩ := List.mem_map.1 (List.mem_filter.1 hline).1
  rcases Layout.mem_squeezeFrom hmem with rfl | hmem
  · exact .inr (.inl rfl)
  · refine .inr (.inr ?_)
    rw [← Text.joined_pieces '\n' t]
    exact (infix_joined '\n' hpiece).subset hmem

theorem Source.Bare.squeezeBlock (h : Bare closing t) : Bare closing (squeezeBlock t) := by
  refine ⟨Layout.words_squeezeBlock t ▸ h.words, fun c hc => ?_⟩
  rcases mem_squeezeBlock hc with rfl | rfl | hc
  · decide
  · decide
  · exact h.quotes c hc

theorem Source.Bare.trim (h : Bare closing t) (ht : Sealed n t) : Bare closing (Text.trim t) :=
  ⟨ht.words_trim ▸ h.words, fun c hc => h.quotes c ((Text.trim_sublist t).subset hc)⟩

/-- A bare text may be cut at any character that no placeholder and no word has. -/
theorem Source.Bare.of_append_cons {s : Text} {c : Char} (hs : Sealed n s)
    (hc : Text.isOtherChar c = true)
    (h : Bare closing (s ++ c :: t)) : Bare closing s ∧ Bare closing t := by
  have hwords := h.words
  rw [hs.words_append_cons hc, List.mem_append, not_or] at hwords
  exact ⟨⟨hwords.1, fun d hd => h.quotes d (List.mem_append_left _ hd)⟩,
    ⟨hwords.2, fun d hd => h.quotes d (List.mem_append_right _ (List.mem_cons_of_mem c hd))⟩⟩

theorem bare_of_mem_squeezedLines {line : Text} (ht : Sealed n t)
    (h : Bare closing (squeezeBlock t)) (hline : line ∈ squeezedLines t) : Bare closing line := by
  have hsealed : ∀ l ∈ squeezedLines t, Sealed n l := Sealed.of_joined (by decide) ht.squeezeBlock
  refine ⟨fun hmem => h.words ?_, fun c hc => h.quotes c ((infix_joined '\n' hline).subset hc)⟩
  rw [squeezeBlock, Sealed.words_joined (by decide) hsealed, List.mem_flatMap]
  exact ⟨line, hline, hmem⟩

end Squeezed

/-! ### Declarations -/

theorem words_render {n : Nat} {d : Declaration} (h : d.Regular) :
    words d.render = d.words ++ words (d.value.getD []) := by
  have hident := Declaration.isIdent_words h
  have hsealed : ∀ w ∈ d.words, Sealed n w :=
    fun w hw => .of_all_isWordChar (Text.isWordChar_of_isIdent (hident w hw))
  have hwords : words (Text.joined ' ' d.words) = d.words := by
    rw [Sealed.words_joined (by decide) hsealed]
    conv => rhs; rw [← List.flatMap_singleton' d.words]
    exact List.flatMap_congr fun w hw => Text.words_of_isIdent (hident w hw)
  have hhead : Sealed n (Text.joined ' ' d.words) := Sealed.joined (by decide) hsealed
  rw [Declaration.render_eq, Declaration.assigned]
  cases d.value with
  | none => simp [hwords, Text.words_nil]
  | some v =>
    cases v with
    | nil => simp [hwords, Text.words_nil]
    | cons c rest =>
      simp only [Option.getD_some]
      rw [hhead.words_append_cons (by decide), hwords]

/-- The words of a line are those of the declaration on it. -/
theorem words_line {n : Nat} {line : Text} {d : Declaration} (hline : Sealed n line)
    (h : Declaration.parse? line = some d) (hd : d.Regular) :
    words line = d.words ++ words (d.value.getD []) := by
  have hfields := Declaration.fields_of_parse? h
  obtain ⟨⟨left, hequals, hsides⟩, -⟩ := Declaration.parse?_eq_some h
  have hleft : (Declaration.sides line).1 = left → words left = d.words := by
    intro hleft
    rw [hleft] at hfields
    rw [Text.words_eq_fields fun c hc => ?_, hfields]
    by_cases hblank : isBlank c = true
    · exact .inr hblank
    · obtain ⟨f, hf, hcf⟩ := Text.exists_field_of_mem (by simpa using hblank) hc
      rw [hfields] at hf
      exact .inl (Text.isWordChar_of_isIdent (Declaration.isIdent_words hd f hf) c hcf)
  rcases hsides with ⟨rfl, hnone⟩ | ⟨value, rfl, hsome⟩
  · rw [hnone, Option.getD_none, Text.words_nil, List.append_nil]
    apply hleft
    rw [Declaration.sides, Text.cutAt?_eq_none.2 hequals]
  · rw [hsome, Option.getD_some, (hline.of_append_cons (by decide)).1.words_append_cons (by decide),
      hleft]
    rw [Declaration.sides, Text.cutAt?_append hequals]

/-- The value of a declaration stands in the block it is read from. -/
theorem value_infix_squeezeBlock {t : Text} {ds : List Declaration} {d : Declaration}
    (h : Declaration.parseAll (squeezeBlock t) = .ok ds) (hd : d ∈ ds) :
    ∀ v ∈ d.value, v <:+: squeezeBlock t := by
  obtain ⟨line, hline, -, hparse⟩ := Declaration.exists_line h hd
  obtain ⟨⟨left, -, hsides⟩, -⟩ := Declaration.parse?_eq_some hparse
  obtain ⟨lead, trail, hsplit, -⟩ := Text.exists_trim line
  have hpart : Text.trim line <:+: squeezeBlock t :=
    List.IsInfix.trans ⟨lead, trail, hsplit.symm⟩ (infix_joined '\n' hline)
  intro v hv
  rcases hsides with ⟨-, hnone⟩ | ⟨value, hright, hsome⟩
  · rw [hnone] at hv
    cases hv
  · rw [hsome, Option.mem_some_iff] at hv
    rw [hright, hv] at hpart
    exact ((List.suffix_cons '=' v).trans (List.suffix_append left _)).isInfix.trans hpart

theorem legible_declaration {n : Nat} {t : Text} {ds : List Declaration} {d : Declaration}
    (ht : Sealed n t)
    (hbare : Bare "endglobals".toList t) (hcomments : ∀ v ∈ d.value, Uncommented v)
    (h : Declaration.parseAll (squeezeBlock t) = .ok ds) (hd : d ∈ ds) : d.Legible n := by
  have hregular := Declaration.regular_of_parseAll h hd
  obtain ⟨line, hline, -, hparse⟩ := Declaration.exists_line h hd
  have hsealed : Sealed n (Text.trim line) :=
    (Sealed.of_joined (by decide) ht.squeezeBlock line hline).trim
  have hlineBare : Bare "endglobals".toList (Text.trim line) :=
    (bare_of_mem_squeezedLines ht (hbare.squeezeBlock) hline).trim
      (Sealed.of_joined (by decide) ht.squeezeBlock line hline)
  obtain ⟨⟨left, -, hsides⟩, -, -, huses⟩ := Declaration.parse?_eq_some hparse
  have hvalue : ∀ v ∈ d.value, v <:+: Text.trim line := by
    intro v hv
    rcases hsides with ⟨-, hnone⟩ | ⟨value, hline, hsome⟩
    · rw [hnone] at hv
      cases hv
    · rw [hsome, Option.mem_some_iff] at hv
      rw [hline, hv]
      exact ((List.suffix_cons '=' v).trans (List.suffix_append left _)).isInfix
  have hhead : ∀ c, isWordChar c = false → c ≠ ' ' → c ∉ Text.joined ' ' d.words :=
    fun c hword hspace => Declaration.not_mem_words hregular hword hspace
  have hquotes : ∀ c ∈ d.render, isQuote c = false := by
    intro c hc
    rw [Bool.eq_false_iff]
    intro hquote
    have hword : isWordChar c = false := by
      rw [Bool.eq_false_iff]
      intro hw
      rw [Source.isQuote_of_isWordChar hw] at hquote
      cases hquote
    rw [Declaration.render_eq, List.mem_append] at hc
    rcases hc with hc | hc
    · refine hhead c hword ?_ hc
      rintro rfl
      cases hquote
    · match hv : d.value with
      | none => simp [Declaration.assigned, hv] at hc
      | some [] => simp [Declaration.assigned, hv] at hc
      | some (e :: rest) =>
        simp only [Declaration.assigned, hv] at hc
        rcases List.mem_cons.1 hc with rfl | hc
        · cases hquote
        · have := hlineBare.quotes c ((hvalue _ hv).subset hc)
          rw [hquote] at this
          cases this
  have huncommented : Uncommented d.render := by
    have hplain : Uncommented (Text.joined ' ' d.words) :=
      .of_not_mem (hhead '/' (by decide) (by decide))
    rw [Declaration.render_eq]
    match hv : d.value with
    | none => simpa [Declaration.assigned, hv] using hplain
    | some [] => simpa [Declaration.assigned, hv] using hplain
    | some (e :: rest) =>
      simp only [Declaration.assigned, hv]
      exact .append_cons (by decide) (by decide) hplain (hcomments _ hv)
  refine ⟨hregular, sealed_parseDeclaration hsealed hparse, huses, ⟨?_, hquotes⟩, huncommented⟩
  rw [words_render (n := n) hregular, ← words_line hsealed hparse hregular]
  exact hlineBare.words

/-! ### Functions -/

theorem words_takes {n : Nat} {name params result : Text} (hname : Sealed n name)
    (hparams : Sealed n params) :
    words (name ++ " takes ".toList ++ (params ++ " returns ".toList ++ result)) =
      words name ++ "takes".toList :: (words params ++ "returns".toList :: words result) := by
  have htakes : " takes ".toList = ' ' :: "takes".toList ++ [' '] := by decide
  have hreturns : " returns ".toList = ' ' :: "returns".toList ++ [' '] := by decide
  rw [htakes, hreturns, Text.words_spaced hname (by decide), Text.words_spaced hparams (by decide)]

/-- The header of a function has the words of the line it was read from. -/
theorem words_header {n : Nat} {header : Text} {fields : Header} (hheader : Sealed n header)
    (h : Header.parse? header = some fields) : words fields.text = words header := by
  obtain ⟨⟨name, params, result, htext, rfl⟩, -⟩ := Syntax.Header.parse?_eq_some h
  have htrim := hheader.trim
  rw [htext] at htrim
  obtain ⟨hname, hrest⟩ := htrim.of_cut (by decide) (by decide)
  obtain ⟨hparams, hresult⟩ := hrest.of_cut (by decide) (by decide)
  rw [Header.text, words_takes hname.trim hparams.trim, hname.words_trim, hparams.words_trim,
    hresult.words_trim, ← words_takes hname hparams, ← htext, hheader.words_trim]

theorem Syntax.Parameter.Listing.not_mem {t : Text} (h : Parameter.Listing t) {c : Char}
    (hword : isWordChar c = false) (hblank : isBlank c = false) (hcomma : c ≠ ',') : c ∉ t := by
  intro hmem
  rcases h.chars c hmem with hw | hb | hc
  · rw [hw] at hword
    cases hword
  · rw [hb] at hblank
    cases hblank
  · exact hcomma hc

theorem not_mem_header {f : Function} (hname : isIdent f.name = true)
    (hresult : isIdent f.result = true)
    (hparams : Parameter.Listing f.params) {c : Char} (hword : isWordChar c = false)
    (hblank : isBlank c = false) (hcomma : c ≠ ',') : c ∉ f.header.text := by
  intro hmem
  rcases Header.mem_text (h := f.header) hname hresult hmem with hmem | hw | rfl
  · exact hparams.not_mem hword hblank hcomma hmem
  · rw [hw] at hword
    cases hword
  · cases hblank

theorem not_visible_of_isQuote {c : Char} (h : isQuote c = true) :
    isWordChar c = false ∧ isBlank c = false ∧ c ≠ ',' := by
  rw [isQuote, Bool.or_eq_true, beq_iff_eq, beq_iff_eq] at h
  rcases h with rfl | rfl <;> decide

/-- The body of a function stands in the block it is read from. -/
theorem body_infix_squeezeBlock {t : Text} {f : Function}
    (h : Function.parse (squeezeBlock t) = .ok f) :
    f.body <:+: squeezeBlock t := by
  obtain ⟨header, fields, -, -, -, hsplit⟩ := Function.parse_eq_ok h
  obtain ⟨lead, trail, hspread, -⟩ := Text.exists_trim (squeezeBlock t)
  rcases hsplit with ⟨-, hbody⟩ | hsplit
  · rw [hbody]
    exact List.nil_infix
  · have hpart : f.body <:+: Text.trim (squeezeBlock t) := by
      rw [hsplit]
      exact ((List.suffix_cons '\n' f.body).trans (List.suffix_append header _)).isInfix
    exact hpart.trans ⟨lead, trail, hspread.symm⟩

theorem legible_function {n : Nat} {t : Text} {f : Function} (ht : Sealed n t)
    (hbare : Bare "endfunction".toList t) (hcomments : Uncommented f.body)
    (h : Function.parse (squeezeBlock t) = .ok f)
    (hparams : (Parameter.parseAll? f.params).isSome = true) :
    f.Legible n := by
  obtain ⟨hregular, hlisting⟩ := Function.regular_of_parse h hparams
  have hsealed := sealed_parseFunction ht.squeezeBlock h
  obtain ⟨header, fields, hheader, -, hf, hsplit⟩ := Function.parse_eq_ok h
  have htrim := (hbare.squeezeBlock).trim ht.squeezeBlock
  have hblock := ht.squeezeBlock.trim
  have hparts : Sealed n header ∧ Bare "endfunction".toList header ∧
      Bare "endfunction".toList f.body := by
    rcases hsplit with ⟨hsplit, hbody⟩ | hsplit
    · rw [hsplit] at htrim hblock
      rw [hbody]
      exact ⟨hblock, htrim, ⟨by simp [Text.words_nil], nofun⟩⟩
    · rw [hsplit] at htrim hblock
      have hcut := (hblock.of_append_cons (by decide)).1
      obtain ⟨hleft, hright⟩ := htrim.of_append_cons hcut (by decide)
      exact ⟨hcut, hleft, hright⟩
  obtain ⟨hheaderSealed, hheaderBare, hbodyBare⟩ := hparts
  have hfields : f.header = fields := by
    rw [hf]
    rfl
  refine ⟨hregular, hsealed, ?_, hlisting, ⟨?_, fun c hc => ?_⟩, hbodyBare, hcomments⟩
  · conv => lhs; rw [hf]
    rw [← hfields]
    rfl
  · rw [hfields, words_header hheaderSealed hheader]
    exact hheaderBare.words
  · rw [Bool.eq_false_iff]
    intro hquote
    obtain ⟨hword, hblank, hcomma⟩ := not_visible_of_isQuote hquote
    exact not_mem_header hregular.name hregular.result hlisting hword hblank hcomma hc

/-! ### Programs -/

/-- What the blocks of a script are made of. -/
theorem bare_blocks {src : Text} {b : Source.Blocks} (hmark : mark ∉ src)
    (h : Source.blocks src = .ok b) :
    Bare "endglobals".toList b.globals ∧ (∀ t ∈ b.functions, Bare "endfunction".toList t) ∧
      ∀ raw ∈ b.literals.texts, ClosedLiteral raw := by
  unfold Source.blocks at h
  split at h
  · cases h
  rename_i hend
  cases h
  have hglobals : ∀ t ∈ Source.textsOf .globals (Source.collected src).1,
      Bare "endglobals".toList t ∧ Sealed (Source.collected src).2.size t := by
    intro t ht
    refine ⟨Source.bare_textsOf hmark hend rfl ht, ?_⟩
    exact Source.sealed_of_mem_textsOf hmark hend rfl ht
  refine ⟨?_, fun t ht => Source.bare_textsOf hmark hend rfl ht,
    Source.closedLiteral_collected src⟩
  exact Source.bare_foldl_joinGlobals hglobals ⟨⟨by simp [Text.words_nil], nofun⟩, .nil⟩

/-- What is read from a script is legible. -/
theorem legible_ofBlocks {src : Text} {b : Source.Blocks} {p : Program} (hmark : mark ∉ src)
    (hsize : Text.byteLength src ≤ indexLimit) (hb : Source.blocks src = .ok b)
    (hp : Program.ofBlocks b = .ok p)
    (hcomments : ∀ t ∈ b.globals :: b.functions, Uncommented (squeezeBlock t))
    (hparams : ∀ f ∈ p.functions, (Parameter.parseAll? f.params).isSome = true) : p.Legible := by
  obtain ⟨hliterals, hdeclarations, hnatives, hfunctions⟩ := Program.ofBlocks_eq_ok.1 hp
  obtain ⟨hglobalsBare, hfunctionsBare, hclosed⟩ := bare_blocks hmark hb
  have hsealed := sealed_blocks hmark hb
  rw [List.forall_mem_cons] at hcomments
  constructor
  · have hread : readProgram src = .ok p := readProgram_eq_ok.2 ⟨b, hb, hp⟩
    have hcount := size_readProgram_le hmark hread
    have hbytes := Source.length_le_byteLength src
    omega
  · rw [hliterals]
    exact hclosed
  · intro d hd
    rw [hliterals]
    refine legible_declaration hsealed.globals hglobalsBare (fun v hv => ?_) hdeclarations hd
    exact hcomments.1.of_part (value_infix_squeezeBlock hdeclarations hd v hv)
  · intro n hn
    obtain ⟨t, -, hparse⟩ := exists_of_mem_right hnatives hn
    obtain ⟨hname, hresult, hlist⟩ := Native.parse_eq_ok hparse
    exact ⟨hname, hresult, hlist⟩
  · intro f hf
    obtain ⟨t, ht, hparse⟩ := exists_of_mem_right hfunctions hf
    rw [hliterals]
    have hbody := (hcomments.2 t ht).of_part (body_infix_squeezeBlock hparse)
    exact legible_function (hsealed.functions t ht) (hfunctionsBare t ht) hbody hparse
      (hparams f hf)
  · exact marks_ofBlocks hmark hb hp

end ScriptMinifier
