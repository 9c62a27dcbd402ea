import ScriptMinifier.Proofs.Text.Fields

/-! Reading what was rendered.

The text of a header, a declaration, a native or a function is read back as what it was
rendered from. Each theorem asks only what reading itself guarantees: names are identifiers,
values and bodies are in squeezed form (`Declaration.Regular`, `Function.Regular`). A value that
is empty is not rendered and so comes back as none. -/
namespace ScriptMinifier

theorem map_eq_self {α : Type} {f : α → α} {xs : List α} (h : ∀ x ∈ xs, f x = x) : xs.map f = xs :=
  (List.map_congr_left h).trans (List.map_id xs)

namespace Syntax

open Layout (Tidy Solid Neat NeatLines squeezeBlock squeezeNative squeezeLine)
open Text (isIdent Trimmed joined ended pieces mark isWordChar isBlank)

/-! ### Headers -/

namespace Header

/-- A header as program text. -/
def text (h : Header) : Text :=
  h.name ++ " takes ".toList ++ (h.params ++ " returns ".toList ++ h.result)

theorem text_eq_joined (h : Header) :
    h.text = joined ' ' [h.name, "takes".toList, h.params, "returns".toList, h.result] := by
  simp [text, joined, List.intercalate]

theorem solid_text {h : Header} (hname : isIdent h.name = true) (hresult : isIdent h.result = true)
    (hparams : Solid h.params) : Solid h.text := by
  rw [text_eq_joined]
  refine Solid.joined Solid.append_space (by simp) ?_
  have htakes : Solid "takes".toList := Text.solid_of_isIdent (by decide)
  have hreturns : Solid "returns".toList := Text.solid_of_isIdent (by decide)
  simp only [List.forall_mem_cons, List.not_mem_nil, false_imp_iff, implies_true, and_true]
  exact ⟨Text.solid_of_isIdent hname, htakes, hparams, hreturns, Text.solid_of_isIdent hresult⟩

/-- Beside its parameters a header has words and spaces. -/
theorem mem_text {h : Header} (hname : isIdent h.name = true) (hresult : isIdent h.result = true)
    {c : Char} (hc : c ∈ h.text) : c ∈ h.params ∨ isWordChar c = true ∨ c = ' ' := by
  have htakes : ∀ d ∈ " takes ".toList, isWordChar d = true ∨ d = ' ' := by decide
  have hreturns : ∀ d ∈ " returns ".toList, isWordChar d = true ∨ d = ' ' := by decide
  simp only [text, List.mem_append] at hc
  rcases hc with (hc | hc) | (hc | hc) | hc
  · exact .inr (.inl (Text.isWordChar_of_isIdent hname c hc))
  · exact .inr (htakes c hc)
  · exact .inl hc
  · exact .inr (hreturns c hc)
  · exact .inr (.inl (Text.isWordChar_of_isIdent hresult c hc))

/-- A header is read back. No second `takes` can stand before the first and no second
`returns` after the last, since both are next to a word. -/
theorem parse?_text {h : Header} (hname : isIdent h.name = true) (hresult : isIdent h.result = true)
    (hparams : Solid h.params) : Header.parse? h.text = some h := by
  have hlast : ¬ " returns ".toList <:+: "returns ".toList ++ h.result := by
    intro hpart
    have hcount := hpart.sublist.count_le ' '
    have hzero : h.result.count ' ' = 0 :=
      List.count_eq_zero.2 (Text.not_mem_of_isIdent hresult (by decide))
    rw [List.count_append, hzero] at hcount
    exact absurd hcount (by decide)
  have htakes : Text.cutFirst? " takes ".toList h.text =
      some (h.name, h.params ++ " returns ".toList ++ h.result) :=
    Text.cutFirst?_append (Text.not_mem_of_isIdent hname (by decide)) "takes ".toList _
  have hreturns : Text.cutLast? " returns ".toList (h.params ++ " returns ".toList ++ h.result) =
      some (h.params, h.result) := Text.cutLast?_append hlast h.params
  rw [parse?, (solid_text hname hresult hparams).trimmed.trim_eq, htakes, Option.bind_some]
  simp only [hreturns, Option.bind_some, (Text.solid_of_isIdent hname).trimmed.trim_eq,
    (Text.solid_of_isIdent hresult).trimmed.trim_eq, hparams.trimmed.trim_eq, hname, hresult,
    Bool.and_self, if_true]

end Header

/-! ### Parameters -/

namespace Parameter

/-- What may stand in a parameter list that is read: words, blanks and commas, and a word at
either end. -/
structure Listing (t : Text) : Prop where
  chars : ∀ c ∈ t, isWordChar c = true ∨ isBlank c = true ∨ c = ','
  head : ∃ c ∈ t.head?, isWordChar c = true
  last : ∃ c ∈ t.getLast?, isWordChar c = true

theorem isWordChar_of_parse? {t : Text} {q : Parameter} (h : parse? t = some q) {c : Char}
    (hc : c ∈ t) (hblank : isBlank c = false) : isWordChar c = true := by
  obtain ⟨hfields, htype, hname⟩ := parse?_eq_some h
  obtain ⟨f, hf, hcf⟩ := Text.exists_field_of_mem hblank hc
  rw [hfields, List.mem_cons, List.mem_singleton] at hf
  rcases hf with rfl | rfl
  · exact Text.isWordChar_of_isIdent htype c hcf
  · exact Text.isWordChar_of_isIdent hname c hcf

/-- A parameter list that is read is one. -/
theorem listing_of_parseAll? {t : Text} {qs : List Parameter} (ht : Trimmed t)
    (h : parseAll? t = some qs) :
    Listing t := by
  rcases parseAll?_eq_some h with ⟨hnothing, -⟩ | hall
  · rw [ht.trim_eq] at hnothing
    have hsolid : Solid "nothing".toList := Text.solid_of_isIdent (by decide)
    rw [hnothing]
    exact ⟨fun c hc => .inl (Text.isWordChar_of_isIdent (t := "nothing".toList) (by decide) c hc),
      hsolid.head, hsolid.last⟩
  rw [ht.trim_eq] at hall
  have hpiece : ∀ piece ∈ pieces ',' t, ∃ q, parse? piece = some q := by
    intro piece hp
    obtain ⟨i, hi, rfl⟩ := List.mem_iff_getElem.1 hp
    exact ⟨_, hall.get hi (hall.length_eq ▸ hi)⟩
  have hne : [] ∉ pieces ',' t := by
    intro hmem
    obtain ⟨q, hq⟩ := hpiece [] hmem
    cases hq
  have hchars : ∀ c ∈ t, isWordChar c = true ∨ isBlank c = true ∨ c = ',' := by
    intro c hc
    by_cases hcomma : c = ','
    · exact .inr (.inr hcomma)
    by_cases hblank : isBlank c = true
    · exact .inr (.inl hblank)
    obtain ⟨piece, hp, hcp⟩ := Text.exists_piece_of_mem hcomma hc
    obtain ⟨q, hq⟩ := hpiece piece hp
    exact .inl (isWordChar_of_parse? hq hcp (by simpa using hblank))
  have hend : ∀ c ∈ t, isBlank c = false → c ≠ ',' → isWordChar c = true := by
    intro c hc hblank hcomma
    rcases hchars c hc with hword | hb | hcomma'
    · exact hword
    · rw [hb] at hblank
      cases hblank
    · exact absurd hcomma' hcomma
  have hnil : t ≠ [] := by
    rintro rfl
    exact hne (by simp [pieces])
  obtain ⟨c, rest, rfl⟩ := List.exists_cons_of_ne_nil hnil
  refine ⟨hchars, ⟨c, rfl, ?_⟩, ?_⟩
  · refine hend c List.mem_cons_self (ht.head c rfl) ?_
    rintro rfl
    exact hne (by simp [pieces])
  · generalize c :: rest = t at *
    obtain ⟨init, d, rfl⟩ := (List.eq_nil_or_concat' t).resolve_left hnil
    refine ⟨d, by simp, hend d (by simp) (ht.last d (by simp)) ?_⟩
    rintro rfl
    exact hne (by rw [Text.pieces_append_cons]; simp [pieces])

theorem parse?_render {q : Parameter} (htype : isIdent q.type = true)
    (hname : isIdent q.name = true) :
    parse? q.render = some q := by
  have hrender : q.render = joined ' ' [q.type, q.name] := by
    simp [render, joined, List.intercalate]
  have hfields : Text.fields q.render = [q.type, q.name] := by
    rw [hrender]
    exact Text.fields_joined (by simp [htype, hname])
  simp [parse?, hfields, htype, hname]

theorem solid_render {q : Parameter} (htype : isIdent q.type = true)
    (hname : isIdent q.name = true) : Solid q.render :=
  (Text.solid_of_isIdent htype).append_space (Text.solid_of_isIdent hname)

variable {qs : List Parameter}

theorem solid_renderAll (h : ∀ q ∈ qs, isIdent q.type = true ∧ isIdent q.name = true) :
    Solid (renderAll qs) := by
  rw [renderAll]
  split
  · exact Text.solid_of_isIdent (t := "nothing".toList) (by decide)
  · rename_i hne
    refine Solid.joined Solid.append_comma (by simpa using hne) fun t ht => ?_
    obtain ⟨q, hq, rfl⟩ := List.mem_map.1 ht
    exact solid_render (h q hq).1 (h q hq).2

theorem comma_not_mem_render {q : Parameter} (htype : isIdent q.type = true)
    (hname : isIdent q.name = true) :
    ',' ∉ q.render := by
  have hleft := Text.not_mem_of_isIdent htype (c := ',') (by decide)
  have hright := Text.not_mem_of_isIdent hname (c := ',') (by decide)
  simp [render, hleft, hright]

/-- A parameter list has words, spaces and commas. -/
theorem mem_renderAll (h : ∀ q ∈ qs, isIdent q.type = true ∧ isIdent q.name = true) {c : Char}
    (hc : c ∈ renderAll qs) : isWordChar c = true ∨ c = ' ' ∨ c = ',' := by
  rw [renderAll] at hc
  split at hc
  · exact .inl (Text.isWordChar_of_isIdent (t := "nothing".toList) (by decide) c hc)
  rename_i hne
  by_cases hcomma : c = ','
  · exact .inr (.inr hcomma)
  have hpieces : Text.pieces ',' (joined ',' (qs.map render)) = qs.map render := by
    refine Text.pieces_joined (by simpa using hne) fun t ht => ?_
    obtain ⟨q, hq, rfl⟩ := List.mem_map.1 ht
    exact comma_not_mem_render (h q hq).1 (h q hq).2
  obtain ⟨piece, hpiece, hcp⟩ := Text.exists_piece_of_mem hcomma hc
  rw [hpieces] at hpiece
  obtain ⟨q, hq, rfl⟩ := List.mem_map.1 hpiece
  rw [render, List.mem_append, List.mem_cons] at hcp
  rcases hcp with hcp | rfl | hcp
  · exact .inl (Text.isWordChar_of_isIdent (h q hq).1 c hcp)
  · exact .inr (.inl rfl)
  · exact .inl (Text.isWordChar_of_isIdent (h q hq).2 c hcp)

/-- A parameter list is read back. -/
theorem parseAll?_renderAll (h : ∀ q ∈ qs, isIdent q.type = true ∧ isIdent q.name = true) :
    parseAll? (renderAll qs) = some qs := by
  rw [parseAll?, (solid_renderAll h).trimmed.trim_eq]
  by_cases hnil : qs = []
  · rw [hnil]
    rfl
  rw [renderAll, if_neg hnil]
  have hcomma : ∀ t ∈ qs.map render, ',' ∉ t := by
    intro t ht
    obtain ⟨q, hq, rfl⟩ := List.mem_map.1 ht
    exact comma_not_mem_render (h q hq).1 (h q hq).2
  rw [if_neg]
  · rw [Text.pieces_joined (by simpa using hnil) hcomma, mapM_eq_some, List.forall₂_map_left_iff,
      List.forall₂_same]
    exact fun q hq => parse?_render (h q hq).1 (h q hq).2
  · -- an item has a space, the word for no items has none
    intro hnothing
    obtain ⟨q, rest, rfl⟩ := List.exists_cons_of_ne_nil hnil
    have hspace : ' ' ∈ joined ',' ((q :: rest).map render) := by
      cases rest with
      | nil => simp [joined, List.intercalate, render]
      | cons q' more =>
        rw [List.map_cons, List.map_cons, Text.joined_cons_cons]
        simp [render]
    rw [hnothing] at hspace
    revert hspace
    decide

end Parameter

/-! ### Natives -/

namespace Native

variable {n : Native}

/-- The header of a native declaration. -/
def header (n : Native) : Header := ⟨n.name, Parameter.renderAll n.params, n.result⟩

/-- A native declaration after its keyword. -/
def inner (n : Native) : Text := ' ' :: n.header.text

theorem render_eq (n : Native) : n.render = "native".toList ++ n.inner := by
  have hspace : "native ".toList = "native".toList ++ [' '] := by decide
  unfold render inner header Header.text
  rw [hspace]
  simp only [List.append_assoc, List.cons_append, List.nil_append]

theorem solid_render (hname : isIdent n.name = true) (hresult : isIdent n.result = true)
    (hparams : ∀ q ∈ n.params, isIdent q.type = true ∧ isIdent q.name = true) : Solid n.render := by
  rw [render_eq]
  have hnative : Solid "native".toList := Text.solid_of_isIdent (by decide)
  exact hnative.append_space (Header.solid_text hname hresult (Parameter.solid_renderAll hparams))

/-- A native declaration is read back. -/
theorem parse_render (hname : isIdent n.name = true) (hresult : isIdent n.result = true)
    (hparams : ∀ q ∈ n.params, isIdent q.type = true ∧ isIdent q.name = true) :
    parse (squeezeNative n.render) = .ok n := by
  have hsolid := solid_render hname hresult hparams
  have hlist := Parameter.solid_renderAll hparams
  have hheader : Header.parse? n.inner = some n.header := by
    rw [inner, Header.parse?, Text.trim_blank (by decide), ← Header.parse?]
    exact Header.parse?_text hname hresult hlist
  rw [squeezeNative, hsolid.trimmed.trim_eq, hsolid.tidy.collapseBlanks_eq, parse,
    hsolid.trimmed.trim_eq, render_eq, Text.dropStart?_append, Option.bind_some, hheader,
    Option.bind_some, header, Parameter.parseAll?_renderAll hparams]
  rfl

end Native

/-! ### Declarations -/

namespace Declaration

variable {d : Declaration} {ds : List Declaration}

/-- The words before the equals sign. -/
def words (d : Declaration) : List Text :=
  (if d.constant then ["constant".toList] else []) ++ d.type ::
    ((if d.array then ["array".toList] else []) ++ [d.name])

/-- The text from the equals sign on; an empty value has none. -/
def assigned (d : Declaration) : Text :=
  match d.value with
  | some (c :: rest) => '=' :: c :: rest
  | _ => []

theorem render_eq (d : Declaration) : d.render = joined ' ' d.words ++ d.assigned := by
  have hconstant : "constant ".toList = "constant".toList ++ [' '] := by decide
  have harray : "array ".toList = "array".toList ++ [' '] := by decide
  have hhead : (if d.constant then "constant ".toList else []) ++ d.type ++ [' '] ++
      (if d.array then "array ".toList else []) ++ d.name = joined ' ' d.words := by
    rw [hconstant, harray, words]
    cases d.constant <;> cases d.array <;>
      simp only [joined, List.intercalate, List.intersperse, List.flatten_cons, List.flatten_nil,
        if_true, Bool.false_eq_true, if_false, List.nil_append, List.append_nil, List.append_assoc,
        List.cons_append]
  rw [← hhead]
  rfl

/-- What reading guarantees of a declaration. -/
structure Regular (d : Declaration) : Prop where
  type : isDatatype d.type = true
  name : isIdent d.name = true
  tidy : ∀ v ∈ d.value, Tidy (some '=') v
  newline : ∀ v ∈ d.value, '\n' ∉ v
  last : ∀ v ∈ d.value, ∀ c ∈ v.getLast?, isBlank c = false

/-- A declaration as it is read back: an empty value is none. -/
def reread (d : Declaration) : Declaration := { d with value := d.value.filter (· ≠ []), uses := 0 }

/-- What holds of a type, of `array` and of a name holds of the words that these are. -/
theorem forall_typed {q : Text → Prop} {type name : Text} {array : Bool} (htype : q type)
    (harray : q "array".toList)
    (hname : q name) : ∀ w ∈ type :: ((if array then ["array".toList] else []) ++ [name]), q w := by
  refine List.forall_mem_cons.2
    ⟨htype, List.forall_mem_append.2 ⟨?_, List.forall_mem_singleton.2 hname⟩⟩
  cases array with
  | false => exact nofun
  | true => exact List.forall_mem_singleton.2 harray

theorem forall_words (htype : isIdent d.type = true) (hname : isIdent d.name = true) :
    ∀ w ∈ d.words, isIdent w = true := by
  refine List.forall_mem_append.2 ⟨?_, forall_typed htype (by decide) hname⟩
  cases d.constant <;> decide

theorem isIdent_words (h : d.Regular) : ∀ w ∈ d.words, isIdent w = true :=
  forall_words (isIdent_of_isDatatype h.type) h.name

theorem words_ne_nil (d : Declaration) : d.words ≠ [] := by
  rw [words]
  exact List.append_ne_nil_of_right_ne_nil _ (List.cons_ne_nil _ _)

theorem not_mem_words (h : d.Regular) {c : Char} (hc : isWordChar c = false) (hspace : c ≠ ' ') :
    c ∉ joined ' ' d.words :=
  Text.not_mem_joined d.words_ne_nil (isIdent_words h) hc hspace

theorem solid_words (h : d.Regular) : Solid (joined ' ' d.words) :=
  Solid.joined Solid.append_space d.words_ne_nil fun w hw => Text.solid_of_isIdent
    (isIdent_words h w hw)

/-- What has a type and a name is these two, with `array` between them or without. -/
theorem typedName?_eq_some {ws : List Text} {type name : Text} {array : Bool} :
    typedName? ws = some (type, array, name) ↔
    ws = type :: ((if array then ["array".toList] else []) ++ [name]) := by
  constructor
  · intro h
    unfold typedName? at h
    split at h
    · simp only [Option.some.injEq, Prod.mk.injEq] at h
      obtain ⟨rfl, rfl, rfl⟩ := h
      rfl
    · split at h
      · rename_i harray
        simp only [Option.some.injEq, Prod.mk.injEq] at h
        obtain ⟨rfl, rfl, rfl⟩ := h
        rw [harray]
        rfl
      · cases h
    · cases h
  · rintro rfl
    cases array with
    | false => rfl
    | true => rw [if_pos rfl, List.singleton_append, typedName?, if_pos rfl]

theorem typedName?_words (h : d.Regular) :
    typedName? (if d.words.head? == some "constant".toList then d.words.drop 1 else d.words) =
      some (d.type, d.array, d.name) ∧ (d.words.head? == some "constant".toList) = d.constant := by
  have htype : d.type ≠ "constant".toList :=
    (isIdent_datatypes d.type (List.contains_iff_mem.1 h.type)).2
  have harray : typedName? [d.type, "array".toList, d.name] = some (d.type, true, d.name) := by
    rw [typedName?, if_pos rfl]
  have hplain : typedName? [d.type, d.name] = some (d.type, false, d.name) := rfl
  rw [words]
  generalize "constant".toList = constant at htype ⊢
  generalize "array".toList = array at harray ⊢
  cases d.constant <;> cases d.array <;> simp [htype, harray, hplain]

theorem sides_render (h : d.Regular) :
    sides d.render = (joined ' ' d.words, d.value.filter (· ≠ [])) := by
  have hequals := not_mem_words h (c := '=') (by decide) (by decide)
  rw [sides, render_eq]
  cases hvalue : d.value with
  | none => simp [assigned, hvalue, Text.cutAt?_eq_none.2 hequals]
  | some v =>
    cases v with
    | nil => simp [assigned, hvalue, Text.cutAt?_eq_none.2 hequals, Option.filter]
    | cons c rest => simp [assigned, hvalue, Text.cutAt?_append hequals, Option.filter]

/-- A declaration is read back. -/
theorem parse?_render (h : d.Regular) : parse? d.render = some d.reread := by
  obtain ⟨htyped, hconstant⟩ := typedName?_words h
  rw [parse?, sides_render h]
  simp only [Text.fields_joined (isIdent_words h)]
  rw [htyped, hconstant]
  simp only [h.type, h.name, Bool.and_self, if_true]
  rfl

theorem neat_render (h : d.Regular) : Neat d.render := by
  have hsolid := solid_words h
  rw [render_eq]
  refine ⟨by simp [hsolid.ne_nil], hsolid.tidy.append ?_⟩
  match hvalue : d.value with
  | none => simpa [assigned, hvalue] using Tidy.nil
  | some [] => simpa [assigned, hvalue] using Tidy.nil
  | some (c :: rest) =>
    simp only [assigned, hvalue]
    exact .char (by decide) (h.tidy _ hvalue)

theorem newline_not_mem_render (h : d.Regular) : '\n' ∉ d.render := by
  rw [render_eq, List.mem_append, not_or]
  refine ⟨not_mem_words h (by decide) (by decide), ?_⟩
  match hvalue : d.value with
  | none => simp [assigned, hvalue]
  | some [] => simp [assigned, hvalue]
  | some (c :: rest) =>
    simp only [assigned, hvalue, List.mem_cons (a := '\n') (b := '='), not_or]
    exact ⟨by decide, h.newline _ hvalue⟩

theorem trimmed_render (h : d.Regular) : Trimmed d.render := by
  have hsolid := solid_words h
  rw [render_eq]
  constructor
  · rw [List.head?_append_of_ne_nil _ hsolid.ne_nil]
    exact hsolid.trimmed.head
  · match hvalue : d.value with
    | none => simpa [assigned, hvalue] using hsolid.trimmed.last
    | some [] => simpa [assigned, hvalue] using hsolid.trimmed.last
    | some (c :: rest) =>
      have hlast : (joined ' ' d.words ++ d.assigned).getLast? = (c :: rest).getLast? := by
        simp [assigned, hvalue, List.getLast?_append, List.getLast?_cons]
      rw [hlast]
      exact h.last _ hvalue

/-- A block of declarations is read back. -/
theorem parseAll_ended (h : ∀ d ∈ ds, d.Regular) :
    parseAll (squeezeBlock (ended ([] :: ds.map render))) = .ok (ds.map reread) := by
  have hlines : ∀ line ∈ ds.map render, Neat line ∧ '\n' ∉ line ∧ Trimmed line := by
    intro line hline
    obtain ⟨d, hd, rfl⟩ := List.mem_map.1 hline
    exact ⟨neat_render (h d hd), newline_not_mem_render (h d hd), trimmed_render (h d hd)⟩
  have hne : (ds.map render).filter (· ≠ []) = ds.map render :=
    List.filter_eq_self.2 fun line hline => by simpa using (hlines line hline).1.ne_nil
  have hsqueezed : (ds.map render).map squeezeLine = ds.map render :=
    map_eq_self fun line hline => (hlines line hline).1.squeezeLine_eq
  have htrim : (ds.map render).map Text.trim = ds.map render :=
    map_eq_self fun line hline => (hlines line hline).2.2.trim_eq
  have hblock : squeezeBlock (ended ([] :: ds.map render)) = joined '\n' (ds.map render) := by
    rw [Layout.squeezeBlock_ended
      (List.forall_mem_cons.2 ⟨List.not_mem_nil, fun l hl => (hlines l hl).2.1⟩),
      List.map_cons, hsqueezed, show squeezeLine [] = [] from
        rfl, List.filter_cons_of_neg (by simp), hne]
  rw [parseAll_eq_ok, hblock, Text.lines_joined (fun l hl => (hlines l hl).1.ne_nil)
    (fun l hl => (hlines l hl).2.1)
    (fun l hl => (hlines l hl).1.return_not_mem), htrim, hne, List.forall₂_map_left_iff,
      List.forall₂_map_right_iff,
    List.forall₂_same]
  exact fun d hd => parse?_render (h d hd)

/-- What stands before the equals sign is the words of the declaration, with blanks around them. -/
theorem fields_of_parse? {line : Text} (h : parse? line = some d) :
    Text.fields (sides line).1 = d.words := by
  rw [parse?] at h
  split at h
  rename_i left value hsides
  rw [hsides]
  simp only at h ⊢
  split at h
  · rename_i type array name htyped
    split at h
    · rw [← Option.some.inj h]
      have hrest := typedName?_eq_some.1 htyped
      simp only [words]
      split at hrest
      · rename_i hconstant
        obtain ⟨more, hmore⟩ := List.head?_eq_some_iff.1 (beq_iff_eq.1 hconstant)
        rw [hmore, List.drop_succ_cons, List.drop_zero] at hrest
        rw [hmore, hrest]
        simp
      · rename_i hconstant
        rw [if_neg hconstant, hrest]
        rfl
    · cases h
  · cases h

/-- The line that a declaration of a block is read from. -/
theorem exists_line {t : Text} (h : parseAll (squeezeBlock t) = .ok ds) (hd : d ∈ ds) :
    ∃ line ∈ Layout.squeezedLines t, Text.trim line ≠ [] ∧ parse? (Text.trim line) = some d := by
  rw [parseAll_eq_ok, Layout.lines_squeezeBlock] at h
  obtain ⟨line, hline, hparse⟩ := exists_of_mem_right h hd
  obtain ⟨hmem, hne⟩ := List.mem_filter.1 hline
  obtain ⟨raw, hraw, rfl⟩ := List.mem_map.1 hmem
  exact ⟨raw, hraw, by simpa using hne, hparse⟩

/-- What is read is regular. -/
theorem regular_of_parseAll {t : Text} (h : parseAll (squeezeBlock t) = .ok ds) (hd : d ∈ ds) :
    d.Regular := by
  obtain ⟨line, hline, hne, hparse⟩ := exists_line h hd
  obtain ⟨⟨left, -, hsides⟩, htype, hname, -⟩ := parse?_eq_some hparse
  have hnewline : '\n' ∉ Text.trim line := fun hmem =>
    Layout.newline_not_mem_squeezedLines hline (Text.trim_sublist line |>.subset hmem)
  have hneat : Neat (Text.trim line) := by
    refine NeatLines.neat (NeatLines.trim ?_ hne) hnewline
    rw [NeatLines, Text.pieces_of_not_mem (Layout.newline_not_mem_squeezedLines hline),
      List.forall_mem_singleton]
    exact Layout.neat_of_mem_squeezedLines hline
  have htrimmed := Text.trimmed_trim line
  have hvalue : ∀ v ∈ d.value, Text.trim line = left ++ '=' :: v := by
    intro v hv
    rcases hsides with ⟨-, hnone⟩ | ⟨value, hline, hsome⟩
    · rw [hnone] at hv
      cases hv
    · rw [hsome, Option.mem_some_iff] at hv
      rw [← hv]
      exact hline
  refine ⟨htype, hname, fun v hv => ?_, fun v hv hmem => ?_, fun v hv c hc => ?_⟩
  · have htidy := hneat.tidy
    rw [hvalue v hv] at htidy
    exact (htidy.of_append_cons (by decide)).2
  · rw [hvalue v hv] at hnewline
    exact hnewline (List.mem_append_right _ (List.mem_cons_of_mem _ hmem))
  · refine htrimmed.last c ?_
    rw [hvalue v hv, List.getLast?_append, List.getLast?_cons, Option.mem_def.1 hc]
    rfl

end Declaration

/-! ### Functions -/

namespace Function

variable {f : Function}

/-- The header of a function. -/
def header (f : Function) : Header := ⟨f.name, f.params, f.result⟩

/-- The lines of the body. -/
def lines (f : Function) : List Text := if f.body = [] then [] else pieces '\n' f.body

/-- The text of a function between the words that enclose it. -/
def inner (f : Function) : Text := ended ((' ' :: f.header.text) :: f.lines)

/-- What reading guarantees of a function. -/
structure Regular (f : Function) : Prop where
  name : isIdent f.name = true
  result : isIdent f.result = true
  params : Solid f.params
  newline : '\n' ∉ f.params
  body : f.body ≠ [] → NeatLines f.body
  last : ∀ c ∈ f.body.getLast?, isBlank c = false

theorem solid_header (h : f.Regular) : Solid f.header.text :=
  Header.solid_text h.name h.result h.params

theorem newline_not_mem_header (h : f.Regular) : '\n' ∉ f.header.text := by
  intro hmem
  rcases Header.mem_text (h := f.header) h.name h.result hmem with hparams | hword | hspace
  · exact h.newline hparams
  · exact absurd hword (by decide)
  · exact absurd hspace (by decide)

theorem neat_lines (h : f.Regular) : ∀ line ∈ f.lines, Neat line := by
  rw [lines]
  split
  · nofun
  · exact h.body ‹_›

theorem newline_not_mem_lines (f : Function) : ∀ line ∈ f.lines, '\n' ∉ line := by
  rw [lines]
  split
  · nofun
  · exact fun line hline => Text.not_mem_of_mem_pieces hline

theorem joined_lines (f : Function) : joined '\n' f.lines = f.body := by
  rw [lines]
  split
  · rename_i hnil
    rw [hnil]
    rfl
  · exact Text.joined_pieces '\n' f.body

theorem squeezeBlock_inner (h : f.Regular) :
    squeezeBlock f.inner = joined '\n' (f.header.text :: f.lines) := by
  have hheader : squeezeLine (' ' :: f.header.text) = f.header.text := by
    rw [squeezeLine, Layout.squeezeFrom, if_pos (by decide), Layout.squeezeFrom_none]
    exact (solid_header h).tidy.squeezeFrom_eq
  have hlines : f.lines.map squeezeLine = f.lines :=
    map_eq_self fun line hline => (neat_lines h line hline).squeezeLine_eq
  have hne : f.lines.filter (· ≠ []) = f.lines :=
    List.filter_eq_self.2 fun line hline => by simpa using (neat_lines h line hline).ne_nil
  rw [inner, Layout.squeezeBlock_ended, List.map_cons, hheader, hlines,
    List.filter_cons_of_pos (by simpa using (solid_header h).ne_nil), hne]
  rw [List.forall_mem_cons, List.mem_cons, not_or]
  exact ⟨⟨by decide, newline_not_mem_header h⟩, newline_not_mem_lines f⟩

/-- A function is read back. -/
theorem parse_inner (h : f.Regular) :
    parse (squeezeBlock f.inner) = .ok (new f.name f.params f.result f.body) := by
  have hparse : Header.parse? f.header.text = some f.header :=
    Header.parse?_text h.name h.result h.params
  have hsolid := solid_header h
  have hcut : Text.cutAt? '\n' f.header.text = none :=
    Text.cutAt?_eq_none.2 (newline_not_mem_header h)
  rw [squeezeBlock_inner h]
  by_cases hbody : f.body = []
  · have hblock : joined '\n' (f.header.text :: f.lines) = f.header.text := by
      simp [lines, hbody, joined, List.intercalate]
    rw [hblock, parse, hsolid.trimmed.trim_eq, hcut, Option.getD_none, hbody]
    simp only [hparse]
    rfl
  · have hblock : joined '\n' (f.header.text :: f.lines) = f.header.text ++ '\n' :: f.body := by
      rw [← joined_lines f, lines, if_neg hbody]
      obtain ⟨line, more, hlines⟩ := List.exists_cons_of_ne_nil (Text.pieces_ne_nil '\n' f.body)
      rw [hlines, Text.joined_cons_cons]
    have htrimmed : Trimmed (f.header.text ++ '\n' :: f.body) := by
      constructor
      · rw [List.head?_append_of_ne_nil _ hsolid.ne_nil]
        exact hsolid.trimmed.head
      · rw [List.getLast?_append, List.getLast?_cons, List.getLast?_eq_some_getLast hbody]
        exact fun c hc => h.last c (by rw [List.getLast?_eq_some_getLast hbody]; exact hc)
    rw [hblock, parse, htrimmed.trim_eq, Text.cutAt?_append (newline_not_mem_header h),
      Option.getD_some]
    simp only [hparse]
    rfl

theorem tidy_of_trimmed {before : Option Char} {s t u : Text} (ht : Trimmed t)
    (h : Tidy before (s ++ t ++ u)) :
    Tidy none t := by
  cases t with
  | nil => exact .nil
  | cons c rest =>
    have hc := (Layout.visible_of_not_isBlank (ht.head c rfl)).1
    rw [List.append_assoc, List.cons_append] at h
    have hright : Tidy none (c :: rest ++ u) := .char hc (h.of_append_cons hc).2
    obtain ⟨init, d, hinit⟩ := (List.eq_nil_or_concat' (c :: rest)).resolve_left (by simp)
    rw [hinit] at ht hright ⊢
    have hd := (Layout.visible_of_not_isBlank (ht.last d (by simp))).1
    rw [List.append_assoc] at hright
    exact (hright.of_append_cons hd).1

/-- What is read is regular, when its parameters can be read too. -/
theorem regular_of_parse {t : Text} (h : parse (squeezeBlock t) = .ok f)
    (hparams : (Parameter.parseAll? f.params).isSome = true) :
    f.Regular ∧ Parameter.Listing f.params := by
  obtain ⟨header, fields, hheader, hnewline, hf, hsplit⟩ := parse_eq_ok h
  obtain ⟨⟨name, params, result, htext, hfields⟩, hident⟩ := Header.parse?_eq_some hheader
  obtain ⟨qs, hqs⟩ := Option.isSome_iff_exists.1 hparams
  have hfparams : f.params = Text.trim params := by rw [hf, hfields]; rfl
  have htrimmed : Trimmed f.params := hfparams ▸ Text.trimmed_trim params
  have hlisting := Parameter.listing_of_parseAll? htrimmed hqs
  have hne : Text.trim header ≠ [] := by
    rw [htext]
    simp
  have hheaderNe : header ≠ [] := by
    rintro rfl
    exact hne rfl
  have hblockNe : Text.trim (squeezeBlock t) ≠ [] := by
    rcases hsplit with ⟨hsplit, -⟩ | hsplit <;> rw [hsplit] <;> simp [hheaderNe]
  have hneat : NeatLines (Text.trim (squeezeBlock t)) := by
    refine NeatLines.trim (Layout.neatLines_squeezeBlock ?_) hblockNe
    intro hnil
    rw [hnil] at hblockNe
    exact hblockNe rfl
  have hparts : NeatLines header ∧ (f.body ≠ [] → NeatLines f.body) ∧ ∀ c ∈ f.body.getLast?,
      isBlank c = false := by
    rcases hsplit with ⟨hsplit, hbody⟩ | hsplit
    · rw [hsplit] at hneat
      rw [hbody]
      exact ⟨hneat, fun hnil => absurd rfl hnil, nofun⟩
    · have hlast := (Text.trimmed_trim (squeezeBlock t)).last
      rw [hsplit] at hneat hlast
      obtain ⟨hleft, hright⟩ := hneat.of_append_cons
      refine ⟨hleft, fun _ => hright, fun c hc => hlast c ?_⟩
      rw [List.getLast?_append, List.getLast?_cons, Option.mem_def.1 hc]
      rfl
  have htidy : Tidy none f.params := by
    have hline : Tidy none (Text.trim header) :=
      ((hparts.1.trim hne).neat fun hmem => hnewline ((Text.trim_sublist header).subset hmem)).tidy
    obtain ⟨lead, trail, hspread, -⟩ := Text.exists_trim params
    have hcut : Text.trim header = (name ++ " takes ".toList ++ lead) ++ f.params ++
        (trail ++ " returns ".toList ++ result) := by
      rw [htext, hfparams]
      conv => lhs; rw [hspread]
      simp only [List.append_assoc]
    rw [hcut] at hline
    exact tidy_of_trimmed htrimmed hline
  have hfnewline : '\n' ∉ f.params := by
    intro hmem
    rw [hfparams] at hmem
    refine hnewline ((Text.trim_sublist header).subset ?_)
    rw [htext]
    simp [(Text.trim_sublist params).subset hmem]
  have hname : f.name = fields.name := by rw [hf]; rfl
  have hresult : f.result = fields.result := by rw [hf]; rfl
  exact ⟨⟨hname ▸ hident.1, hresult ▸ hident.2, ⟨htidy, hlisting.head, hlisting.last⟩, hfnewline,
    hparts.2.1, hparts.2.2⟩, hlisting⟩

end Function

end Syntax
end ScriptMinifier
