import ScriptMinifier.Proofs.Literal.Sealed
import ScriptMinifier.Substitution.Inlining

/-! Placeholders through inlining.

Replacements are cut out of tables, their literals are lifted, they are squeezed, filled with
arguments and put in the place of a call that is itself found by its parentheses. What a run
does to its state is a sequence of lookups and messages (`Inlining.Follows`). A lookup adds
literals to the table and a sealed replacement to those it has (`Inlining.Sealed.lookup?`), so
what is sealed stays so, and every entry of a table is lifted once, so the literals never
outgrow the texts they come from (`Inlining.Follows.room_le`). -/
namespace ScriptMinifier

open Text (mark isQuote closeQuote?)
open Literal (placeholder)

/-! ### Lifting literals -/

namespace Literals

theorem size_intern (ls : Literals) (raw : Text) : (ls.intern raw).2.size = ls.size + 1 := by
  simp [intern, size]

/-- The literals of a text that has no marks have none, and what is left of it is sealed. -/
structure Lifts (ls : Literals) (raw : Text) (out : Text) (ls' : Literals) : Prop where
  out_sealed : Sealed ls'.size out
  texts : ∀ lit ∈ ls'.texts, lit ∈ ls.texts ∨ mark ∉ lit
  size_le : ls.size ≤ ls'.size
  size_le_length : ls'.size ≤ ls.size + raw.length

theorem lifts_lift (ls : Literals) {raw : Text} (h : mark ∉ raw) :
    Lifts ls raw (ls.lift raw).1 (ls.lift raw).2 := by
  fun_induction lift ls raw with
  | case1 ls => exact ⟨.nil, fun _ => .inl, Nat.le_refl _, Nat.le_refl _⟩
  | case2 ls c rest hc hclose =>
    exact ⟨.of_not_mem h, fun _ => .inl, Nat.le_refl _, Nat.le_add_right _ _⟩
  | case3 ls c rest hc inside after hclose held ls' hintern out ls'' hout ih =>
    obtain rfl := Text.closeQuote?_eq_some hclose
    rw [← List.cons_append, List.mem_append, not_or] at h
    have hafter : Lifts ls' after out ls'' := by simpa [hout] using ih h.2
    rw [intern, Prod.mk.injEq] at hintern
    obtain ⟨rfl, rfl⟩ := hintern
    have hsize : (⟨ls.texts ++ [c :: inside]⟩ : Literals).size = ls.size + 1 :=
      size_intern ls (c :: inside)
    have hle := hafter.size_le
    have hlength := hafter.size_le_length
    rw [hsize] at hle hlength
    refine ⟨.literal hle hafter.out_sealed, fun lit hlit => ?_, Nat.le_of_succ_le hle, ?_⟩
    · rcases hafter.texts lit hlit with hmem | hclean
      · rcases List.mem_append.1 hmem with hmem | hmem
        · exact .inl hmem
        · rw [List.mem_singleton.1 hmem]
          exact .inr h.1
      · exact .inr hclean
    · show ls''.size ≤ _
      simp only [List.length_cons, List.length_append]
      omega
  | case4 ls c rest hc out ls' hout ih =>
    rw [List.mem_cons, not_or] at h
    have hrest : Lifts ls rest out ls' := by simpa [hout] using ih h.2
    exact ⟨.char (Ne.symm h.1) hrest.out_sealed, hrest.texts, hrest.size_le,
      Nat.le_succ_of_le hrest.size_le_length⟩

end Literals

namespace Substitution

open Text (Segment isWordChar splitClose? arguments argumentsFrom)

/-! ### Arguments -/

/-- Arguments and the commas between them make up the list. -/
theorem joined_argumentsFrom (depth : Nat) (hidden : Bool) (t : Text) :
    Text.joined ',' (argumentsFrom depth hidden t) = t := by
  induction t generalizing depth hidden with
  | nil => simp [argumentsFrom, Text.joined, List.intercalate]
  | cons c rest ih =>
    have onward (d : Nat) (b : Bool) :
        Text.joined ',' (Text.extendFirst c (argumentsFrom d b rest)) = c :: rest := by
      rw [Text.joined_extendFirst ',' c (Text.argumentsFrom_ne_nil d b rest), ih]
    have separate (d : Nat) (b : Bool) (hc : c = ',') :
        Text.joined ',' ([] :: argumentsFrom d b rest) = c :: rest := by
      obtain ⟨second, more, hargs⟩ :=
        List.exists_cons_of_ne_nil (Text.argumentsFrom_ne_nil d b rest)
      rw [hargs, Text.joined_cons_cons, ← hargs, ih, hc]
      rfl
    rw [argumentsFrom]
    repeat' split
    all_goals first | exact onward _ _ | exact separate _ _ (by simp_all)

theorem sealed_arguments {n : Nat} {t : Text} (h : Sealed n t) :
    ∀ arg ∈ arguments t, Sealed n arg := by
  rw [arguments]
  split
  · intro arg harg
    cases harg
  · rw [← joined_argumentsFrom 0 false t] at h
    exact h.of_joined (by decide)

/-! ### Templates -/

/-- A backslash that opens an argument. -/
def OpensArgument (c : Char) (rest : Text) : Prop := c = '\\' ∧ rest.head?.any Char.isDigit = true

theorem expand?_char {c : Char} {rest : Text} (h : ¬ OpensArgument c rest) (args : List Text) :
    expand? (c :: rest) args = (expand? rest args).map (c :: ·) := by
  unfold OpensArgument at h
  rw [expand?, expand?, parts, if_neg h, List.mapM_cons]
  cases (parts rest).mapM (Part.text? args) <;> rfl

theorem expand?_argument {c : Char} {rest : Text} (h : OpensArgument c rest) (args : List Text) :
    expand? (c :: rest) args =
      args[Text.readDigits 10 (rest.takeWhile Char.isDigit) 0]?.bind fun arg =>
        (expand? (rest.dropWhile Char.isDigit) args).map (arg ++ ·) := by
  unfold OpensArgument at h
  rw [expand?, expand?, parts, if_pos h, List.mapM_cons, Part.text?]
  cases args[Text.readDigits 10 (rest.takeWhile Char.isDigit) 0]? with
  | none => rfl
  | some arg => cases (parts (rest.dropWhile Char.isDigit)).mapM (Part.text? args) <;> rfl

theorem expand?_append {s : Text} (hs : '\\' ∉ s) (t : Text) (args : List Text) :
    expand? (s ++ t) args = (expand? t args).map (s ++ ·) := by
  induction s with
  | nil => simp
  | cons c rest ih =>
    rw [List.mem_cons, not_or] at hs
    rw [List.cons_append, expand?_char (fun h => hs.1 h.1.symm), ih hs.2, Option.map_map]
    rfl

/-- Arguments are put in whole, and all else of a template stays as it is. The digits of an
argument's number may be followed by any text, so the induction keeps both forms. -/
theorem sealed_expand? {n : Nat} {args : List Text} (hargs : ∀ arg ∈ args, Sealed n arg)
    {template : Text}
    (h : Sealed n template) {out : Text} (hout : expand? template args = some out) :
    Sealed n out := by
  have hboth : (∀ out, expand? template args = some out → Sealed n out) ∧
      ∀ out, expand? (template.dropWhile Char.isDigit) args = some out → Sealed n out := by
    clear hout
    induction h with
    | nil =>
      have hnil : ∀ out, expand? [] args = some out → Sealed n out := by
        intro out hout
        obtain rfl : [] = out := by simpa [expand?, parts] using hout
        exact .nil
      exact ⟨hnil, hnil⟩
    | @char c t hc _ ih =>
      have hfirst : ∀ out, expand? (c :: t) args = some out → Sealed n out := by
        intro out hout
        by_cases hopens : OpensArgument c t
        · rw [expand?_argument hopens, Option.bind_eq_some_iff] at hout
          obtain ⟨arg, harg, hrest⟩ := hout
          obtain ⟨more, hmore, rfl⟩ := Option.map_eq_some_iff.1 hrest
          exact (hargs arg (List.mem_of_getElem? harg)).append (ih.2 more hmore)
        · rw [expand?_char hopens] at hout
          obtain ⟨more, hmore, rfl⟩ := Option.map_eq_some_iff.1 hout
          exact .char hc (ih.1 more hmore)
      refine ⟨hfirst, ?_⟩
      by_cases hdigit : c.isDigit = true
      · rw [List.dropWhile_cons_of_pos hdigit]
        exact ih.2
      · rw [List.dropWhile_cons_of_neg hdigit]
        exact hfirst
    | @literal k t hk _ ih =>
      have hfirst : ∀ out, expand? (placeholder k ++ t) args = some out → Sealed n out := by
        intro out hout
        rw [expand?_append (Literal.not_mem_placeholder (by decide))] at hout
        obtain ⟨more, hmore, rfl⟩ := Option.map_eq_some_iff.1 hout
        exact .literal hk (ih.1 more hmore)
      refine ⟨hfirst, ?_⟩
      rw [Literal.placeholder_append, List.dropWhile_cons_of_neg (by decide),
        ← Literal.placeholder_append]
      exact hfirst
  exact hboth.1 out hout

/-! ### States -/

/-- No text of a table has a mark. -/
def Table.Clean (table : Table) : Prop := ∀ entry ∈ table.entries, mark ∉ entry.2

/-- Replacements that have been looked up are sealed. -/
def Templates.Sealed (n : Nat) (templates : Text.Dictionary Text) : Prop :=
  ∀ name t, templates.find? name = some t → ScriptMinifier.Sealed n t

/-- The length of the texts of a table that have not been looked up. -/
def unseen (table : Table) (templates : Text.Dictionary Text) : Nat :=
  ((table.entries.filter fun entry => !templates.contains entry.1).map fun entry =>
    entry.2.length).sum

theorem Templates.Sealed.mono {n m : Nat} {templates : Text.Dictionary Text}
    (h : Templates.Sealed n templates) (hle : n ≤ m) : Templates.Sealed m templates :=
  fun name t ht => (h name t ht).mono hle

theorem mem_entries_of_find? {table : Table} {name raw : Text} (h : table.find? name = some raw) :
    (name, raw) ∈ table.entries := by
  obtain ⟨entry, hentry, rfl⟩ := Option.map_eq_some_iff.1 h
  have hname : entry.1 = name := by simpa using List.find?_some hentry
  rw [← hname]
  exact List.mem_of_find?_eq_some hentry

theorem contains_insert (templates : Text.Dictionary Text) (key name template : Text) :
    (templates.insert key template).contains name = (key == name || templates.contains name) := by
  rw [Text.Dictionary.contains, Text.Dictionary.find?_insert]
  by_cases h : key = name
  · simp [h]
  · simp [h, Text.Dictionary.contains]

/-- An entry is looked up once. -/
theorem unseen_insert {table : Table} {templates : Text.Dictionary Text} {name raw : Text}
    (hfind : templates.find? name = none) (hraw : table.find? name = some raw) (template : Text) :
    unseen table (templates.insert name template) + raw.length ≤ unseen table templates := by
  have hnew : templates.contains name = false := by simp [Text.Dictionary.contains, hfind]
  obtain ⟨before, after, hsplit⟩ := List.append_of_mem (mem_entries_of_find? hraw)
  have hpart (entries : List (Text × Text)) :
      ((entries.filter fun entry => !(templates.insert name template).contains entry.1).map
          fun entry => entry.2.length).sum ≤
        ((entries.filter fun entry => !templates.contains entry.1).map fun entry =>
          entry.2.length).sum := by
    induction entries with
    | nil => exact Nat.le_refl 0
    | cons entry rest ih =>
      simp only [List.filter_cons, contains_insert] at ih ⊢
      cases name == entry.1 <;> cases templates.contains entry.1 <;> (simp_all; try omega)
  have hbefore := hpart before
  have hafter := hpart after
  unfold unseen
  rw [hsplit]
  simp only [List.filter_append, List.filter_cons, contains_insert, hnew, beq_self_eq_true,
    Bool.true_or, Bool.not_true, Bool.not_false, Bool.false_eq_true, if_false, if_true,
    List.map_append, List.map_cons, List.sum_append, List.sum_cons]
  simp only [contains_insert] at hbefore hafter
  omega

/-- What a run has to keep: replacements are sealed and literals have no marks. -/
structure Inlining.Sealed (s : Inlining) : Prop where
  templates : Templates.Sealed s.literals.size s.templates
  literals : ∀ raw ∈ s.literals.texts, mark ∉ raw

/-- The literals of a state, and those that its table can still add. -/
def Inlining.room (table : Table) (s : Inlining) : Nat := s.literals.size + unseen table s.templates

/-- A lookup either finds a replacement or lifts the text of an entry. -/
theorem lookup?_cases {table : Table} {s s' : Inlining} {name template : Text}
    (h : s.lookup? table name = some (template, s')) :
    (s.templates.find? name = some template ∧ s' = s) ∨
      ∃ raw, s.templates.find? name = none ∧ table.find? name = some raw ∧
        template = Layout.squeezeBlock (s.literals.lift raw).1 ∧
        s' = { s with
          templates := s.templates.insert name template
          literals := (s.literals.lift raw).2 } := by
  rw [Inlining.lookup?] at h
  split at h
  · rename_i found hfind
    rw [Option.some.injEq, Prod.mk.injEq] at h
    exact .inl ⟨by rw [hfind, h.1], h.2.symm⟩
  · rename_i hfind
    obtain ⟨raw, hraw, hmade⟩ := Option.map_eq_some_iff.1 h
    rw [Prod.mk.injEq] at hmade
    exact .inr ⟨raw, hfind, hraw, hmade.1.symm, by rw [← hmade.2, ← hmade.1]⟩

/-- What one state keeps of another: it is sealed, and its literals grow, but no more than the
table has room for. -/
structure Inlining.Grows (table : Table) (s s' : Inlining) : Prop where
  sealed : s'.Sealed
  size_le : s.literals.size ≤ s'.literals.size
  room_le : s'.room table ≤ s.room table

namespace Inlining

variable {table : Table} {s s' s'' : Inlining}

theorem Sealed.refl (h : s.Sealed) : Grows table s s := ⟨h, Nat.le_refl _, Nat.le_refl _⟩

theorem Grows.trans (h : Grows table s s') (h' : Grows table s' s'') : Grows table s s'' :=
  ⟨h'.sealed, Nat.le_trans h.size_le h'.size_le, Nat.le_trans h'.room_le h.room_le⟩

theorem Grows.tell (h : Grows table s s') (message : Message) : Grows table s (s'.tell message) :=
  ⟨⟨h.sealed.templates, h.sealed.literals⟩, h.size_le, h.room_le⟩

/-- A lookup gives a sealed replacement and keeps what is sealed. -/
theorem Sealed.lookup? (hs : s.Sealed) (htable : table.Clean) {name template : Text}
    (h : s.lookup? table name = some (template, s')) :
    Grows table s s' ∧ ScriptMinifier.Sealed s'.literals.size template := by
  rcases lookup?_cases h with ⟨hfound, rfl⟩ | ⟨raw, hnew, hraw, rfl, rfl⟩
  · exact ⟨hs.refl, hs.templates name template hfound⟩
  · have hclean : mark ∉ raw := htable _ (mem_entries_of_find? hraw)
    have hlift := s.literals.lifts_lift hclean
    have htemplate := hlift.out_sealed.squeezeBlock
    refine ⟨⟨⟨fun other t ht => ?_, fun lit hlit => ?_⟩, hlift.size_le, ?_⟩, htemplate⟩
    · rw [Text.Dictionary.find?_insert] at ht
      split at ht
      · rw [← Option.some.inj ht]
        exact htemplate
      · exact (hs.templates other t ht).mono hlift.size_le
    · rcases hlift.texts lit hlit with hmem | hnew
      · exact hs.literals lit hmem
      · exact hnew
    · have := unseen_insert hnew hraw (Layout.squeezeBlock (s.literals.lift raw).1)
      have := hlift.size_le_length
      simp only [room]
      omega

end Inlining

/-! ### Calls -/

theorem sealed_beforeReplacement {n : Nat} {replacement out : Text} (h : Sealed n out.reverse) :
    Sealed n (beforeReplacement replacement out).reverse := by
  rw [beforeReplacement]
  split
  · rename_i hboth
    obtain ⟨tail, rfl⟩ := List.isPrefixOf_iff_prefix.1 (Bool.and_eq_true_iff.1 hboth).2
    rw [List.reverse_append, List.reverse_reverse] at h
    exact h.of_append_right (by decide)
  · exact h

/-- What inlining the calls of a text gives, from what has been written. -/
def CallsSealed (table : Table) (s : Inlining) (out t : Text) : Prop :=
  s.Sealed → Sealed s.literals.size out.reverse → Sealed s.literals.size t →
    s.Grows table (inlineFrom table s out t).2 ∧
      Sealed (inlineFrom table s out t).2.literals.size (inlineFrom table s out t).1

/-- What inlining the calls of several texts gives. -/
def EachSealed (table : Table) (s : Inlining) (args : List Text) : Prop :=
  s.Sealed → (∀ arg ∈ args, Sealed s.literals.size arg) →
    s.Grows table (inlineEach table s args).2 ∧
      ∀ arg ∈ (inlineEach table s args).1, Sealed (inlineEach table s args).2.literals.size arg

section Steps

/-! What is done at a word, by what follows it and by what its table says. -/

variable {table : Table} {s s' : Inlining} {out : Text} {c : Char}
  {rest inner template inside tail : Text}

theorem inlineFrom_word (hmark : c ≠ mark) (hword : isWordChar c = true)
    (hplain : ∀ inner, rest.dropWhile isWordChar ≠ '(' :: inner) :
    inlineFrom table s out (c :: rest) =
      inlineFrom table s ((c :: rest.takeWhile isWordChar).reverse ++ out)
      (rest.dropWhile isWordChar) := by
  rw [inlineFrom, if_neg hmark, if_pos hword]
  split
  · rename_i inner hcall
    exact absurd hcall (hplain inner)
  · rfl

theorem inlineFrom_unknown (hmark : c ≠ mark) (hword : isWordChar c = true)
    (hcall : rest.dropWhile isWordChar = '(' :: inner)
    (hlookup : s.lookup? table (c :: rest.takeWhile isWordChar) = none) :
    inlineFrom table s out (c :: rest) =
      inlineFrom table s ((c :: rest.takeWhile isWordChar).reverse ++ out) ('(' :: inner) := by
  rw [inlineFrom, if_neg hmark, if_pos hword]
  split
  · rename_i inner' hcall'
    obtain rfl : inner = inner' := by simpa [hcall] using hcall'
    simp only [hlookup]
  · rename_i hplain
    exact absurd hcall (hplain inner)

theorem inlineFrom_unclosed (hmark : c ≠ mark) (hword : isWordChar c = true)
    (hcall : rest.dropWhile isWordChar = '(' :: inner)
    (hlookup : s.lookup? table (c :: rest.takeWhile isWordChar) = some (template, s'))
    (hclose : splitClose? inner = none) :
    inlineFrom table s out (c :: rest) =
      inlineFrom table s' ((c :: rest.takeWhile isWordChar).reverse ++ out) ('(' :: inner) := by
  rw [inlineFrom, if_neg hmark, if_pos hword]
  split
  · rename_i inner' hcall'
    obtain rfl : inner = inner' := by simpa [hcall] using hcall'
    simp only [hlookup]
    split
    · rfl
    · rename_i hclose'
      rw [hclose] at hclose'
      cases hclose'
  · rename_i hplain
    exact absurd hcall (hplain inner)

/-- A closed call is replaced if its template has all its arguments. -/
theorem inlineFrom_closed (hmark : c ≠ mark) (hword : isWordChar c = true)
    (hcall : rest.dropWhile isWordChar = '(' :: inner)
    (hlookup : s.lookup? table (c :: rest.takeWhile isWordChar) = some (template, s'))
    (hclose : splitClose? inner = some (inside, tail)) :
    inlineFrom table s out (c :: rest) =
      let name := c :: rest.takeWhile isWordChar
      let (args, filled) := inlineEach table s' (arguments inside)
      match expand? template args with
      | some replacement =>
        inlineFrom table
          (filled.tell
            (debug
              ["inline: ".toList, name, " with ".toList, Text.ofNat args.length, " args".toList]))
          (replacement.reverse ++ beforeReplacement replacement out) tail
      | none =>
        inlineFrom table
          (filled.tell
            (warn
              ["inline: ".toList, name,
                " takes more arguments than given, leaving the call".toList]))
          ((name ++ '(' :: inside ++ [')']).reverse ++ out) tail := by
  rw [inlineFrom, if_neg hmark, if_pos hword]
  split
  · rename_i inner' hcall'
    obtain rfl : inner = inner' := by simpa [hcall] using hcall'
    simp only [hlookup]
    split
    · rename_i hclose'
      rw [hclose] at hclose'
      cases hclose'
    · rename_i hclose'
      rw [hclose, Option.some.injEq, Prod.mk.injEq] at hclose'
      obtain ⟨rfl, rfl⟩ := hclose'
      rfl
  · rename_i hplain
    exact absurd hcall (hplain inner)

end Steps

section Parts

variable {n : Nat} {out : Text} {c : Char} {rest inner inside tail : Text}

theorem sealed_name (hword : isWordChar c = true) : Sealed n (c :: rest.takeWhile isWordChar) :=
  .of_all_isWordChar (Text.exists_run hword rest).2

theorem sealed_written (hword : isWordChar c = true) (hout : Sealed n out.reverse) :
    Sealed n ((c :: rest.takeWhile isWordChar).reverse ++ out).reverse := by
  rw [List.reverse_append, List.reverse_reverse]
  exact hout.append (sealed_name hword)

theorem sealed_call (hmark : c ≠ mark) (hcall : rest.dropWhile isWordChar = '(' :: inner)
    (ht : Sealed n (c :: rest)) :
    Sealed n ('(' :: inner) := by
  rw [← hcall]
  exact (ht.tail hmark).dropWhile Text.not_isWordChar_mark

theorem sealed_split (hmark : c ≠ mark) (hcall : rest.dropWhile isWordChar = '(' :: inner)
    (hclose : splitClose? inner = some (inside, tail)) (ht : Sealed n (c :: rest)) :
    Sealed n inside ∧ Sealed n tail := by
  have hinner := (sealed_call hmark hcall ht).tail (by decide)
  rw [Text.closeFrom_eq_some hclose] at hinner
  exact hinner.of_append_cons (by decide)

end Parts

theorem EachSealed.cons {table : Table} {s : Inlining} {arg : Text} {rest : List Text}
    (hfirst : CallsSealed table s [] arg)
    (hrest : EachSealed table (inlineFrom table s [] arg).2 rest) :
    EachSealed table s (arg :: rest) := by
  intro hs hargs
  rw [List.forall_mem_cons] at hargs
  obtain ⟨hgrows, hout⟩ := hfirst hs .nil hargs.1
  obtain ⟨hgrows', hmore⟩ := hrest hgrows.sealed fun t ht => (hargs.2 t ht).mono hgrows.size_le
  rw [inlineEach]
  refine ⟨hgrows.trans hgrows', List.forall_mem_cons.2 ⟨?_, hmore⟩⟩
  exact hout.mono hgrows'.size_le

/-- A closed call of a name in the table: what is written for it is sealed when its parts are. -/
theorem CallsSealed.closed {table : Table} (htable : table.Clean) {s s₁ s₂ : Inlining}
    {out out' : Text} {c : Char}
    {rest inner template inside tail : Text} {args : List Text} {message : Message}
    (hmark : c ≠ mark) (hcall : rest.dropWhile isWordChar = '(' :: inner)
    (hlookup : s.lookup? table (c :: rest.takeWhile isWordChar) = some (template, s₁))
    (hclose : splitClose? inner = some (inside, tail))
    (hargs : EachSealed table s₁ (arguments inside))
    (heach : inlineEach table s₁ (arguments inside) = (args, s₂))
    (h : CallsSealed table (s₂.tell message) out' tail)
    (hwrite : Sealed s₂.literals.size out.reverse → Sealed s₂.literals.size template →
      (∀ arg ∈ args, Sealed s₂.literals.size arg) → Sealed s₂.literals.size inside →
      Sealed s₂.literals.size out'.reverse)
    (heq : inlineFrom table s out (c :: rest) = inlineFrom table (s₂.tell message) out' tail) :
    CallsSealed table s out (c :: rest) := by
  intro hs hout ht
  obtain ⟨hgrows, htemplate⟩ := hs.lookup? htable hlookup
  obtain ⟨hinside, htail⟩ := sealed_split hmark hcall hclose ht
  obtain ⟨hgrows', hinlined⟩ := hargs hgrows.sealed (sealed_arguments (hinside.mono hgrows.size_le))
  rw [heach] at hgrows' hinlined
  have hboth := hgrows.trans hgrows'
  have hwritten := hwrite (hout.mono hboth.size_le) (htemplate.mono hgrows'.size_le) hinlined
    (hinside.mono hboth.size_le)
  obtain ⟨hgrows'', hsealed⟩ := h (hboth.tell _).sealed hwritten (htail.mono hboth.size_le)
  rw [heq]
  exact ⟨(hboth.tell _).trans hgrows'', hsealed⟩

/-- Texts in which calls are inlined stay sealed, and so does the state. -/
theorem inlining_sealed {table : Table} (htable : table.Clean) :
    (∀ s out t, CallsSealed table s out t) ∧ ∀ s args, EachSealed table s args := by
  refine inlineFrom.mutual_induct table (CallsSealed table) (EachSealed table)
    ?done ?literal ?unknown ?unclosed ?replaced ?kept ?word ?other ?none ?each
  case done =>
    intro s out hs hout _
    rw [inlineFrom]
    exact ⟨hs.refl, hout⟩
  case literal =>
    intro s out rest ih hs hout ht
    rw [inlineFrom, if_pos rfl]
    refine ih hs ?_ ht.afterMark
    rw [List.reverse_append, List.reverse_cons, List.reverse_reverse, List.append_assoc]
    exact hout.append ht.throughMark
  case unknown =>
    intro s out c rest hmark hword name inner hcall hlookup ih hs hout ht
    rw [inlineFrom_unknown hmark hword hcall hlookup]
    exact ih hs (sealed_written hword hout) (sealed_call hmark hcall ht)
  case unclosed =>
    intro s out c rest hmark hword name inner hcall template s₁ hlookup hclose ih hs hout ht
    obtain ⟨hgrows, -⟩ := hs.lookup? htable hlookup
    rw [inlineFrom_unclosed hmark hword hcall hlookup hclose]
    have hwritten : Sealed s₁.literals.size (name.reverse ++ out).reverse :=
      (sealed_written hword hout).mono hgrows.size_le
    have hmore := (sealed_call hmark hcall ht).mono hgrows.size_le
    obtain ⟨hgrows', hsealed⟩ := ih hgrows.sealed hwritten hmore
    exact ⟨hgrows.trans hgrows', hsealed⟩
  case replaced =>
    intro s out c rest hmark hword name inner hcall template s₁ hlookup inside tail hclose args s₂
      heach replacement
      hexpand told ihargs ih
    refine CallsSealed.closed htable hmark hcall hlookup hclose ihargs heach ih
      (fun hout htemplate hargs _ => ?_) ?_
    · rw [List.reverse_append, List.reverse_reverse]
      exact (sealed_beforeReplacement hout).append (sealed_expand? hargs htemplate hexpand)
    · rw [inlineFrom_closed hmark hword hcall hlookup hclose]
      simp only [heach, hexpand]
      rfl
  case kept =>
    intro s out c rest hmark hword name inner hcall template s₁ hlookup inside tail hclose args s₂
      heach hexpand told
      ihargs ih
    refine CallsSealed.closed htable hmark hcall hlookup hclose ihargs heach ih
      (fun hout _ _ hinside => ?_) ?_
    · rw [List.reverse_append, List.reverse_reverse, List.append_assoc]
      exact hout.append
        ((sealed_name hword).append (.char (by decide) (hinside.append (.char (by decide) .nil))))
    · rw [inlineFrom_closed hmark hword hcall hlookup hclose]
      simp only [heach, hexpand]
      rfl
  case word =>
    intro s out c rest hmark hword name hplain ih hs hout ht
    rw [inlineFrom_word hmark hword hplain]
    exact ih hs (sealed_written hword hout) ((ht.tail hmark).dropWhile Text.not_isWordChar_mark)
  case other =>
    intro s out c rest hmark hword ih hs hout ht
    rw [inlineFrom, if_neg hmark, if_neg hword]
    refine ih hs ?_ (ht.tail hmark)
    rw [List.reverse_cons]
    exact hout.append (.char hmark .nil)
  case none =>
    intro s hs _
    rw [inlineEach]
    exact ⟨hs.refl, nofun⟩
  case each =>
    intro s arg rest first s' hfirst more s'' hmore ih ih'
    refine EachSealed.cons ih ?_
    rwa [hfirst]

/-! ### Constants -/

section Constants

variable {table : Table} {s : Inlining}

theorem sealed_inlineSegments (htable : table.Clean) (hidden : List Text) {segments : List Segment}
    (hs : s.Sealed) (h : ∀ g ∈ segments, Sealed s.literals.size g.text) :
    s.Grows table (inlineSegments table hidden s segments).2 ∧
      Sealed (inlineSegments table hidden s segments).2.literals.size
      (inlineSegments table hidden s segments).1 := by
  induction segments generalizing s with
  | nil => exact ⟨hs.refl, .nil⟩
  | cons g rest ih =>
    rw [List.forall_mem_cons] at h
    -- what a segment leaves is its own text, or the replacement that was looked up
    have hfirst : ∀ first s', (match g.word?.filter (!hidden.contains ·) with
          | some w => (s.lookup? table w).getD (w, s)
          | none =>
            (g.text, s)) = (first, s') → s.Grows table s' ∧ Sealed s'.literals.size first := by
      intro first s' heq
      split at heq
      · rename_i w hw
        cases hlookup : s.lookup? table w with
        | none =>
          rw [hlookup, Option.getD_none, Prod.mk.injEq] at heq
          obtain ⟨rfl, rfl⟩ := heq
          refine ⟨hs.refl, ?_⟩
          have hword := (Option.filter_eq_some_iff.1 hw).1
          cases g with
          | word t =>
            rw [← Option.some.inj hword]
            exact h.1
          | placeholder t => cases hword
          | other t => cases hword
        | some found =>
          rw [hlookup, Option.getD_some] at heq
          rw [heq] at hlookup
          exact hs.lookup? htable hlookup
      · rw [Prod.mk.injEq] at heq
        obtain ⟨rfl, rfl⟩ := heq
        exact ⟨hs.refl, h.1⟩
    rw [inlineSegments]
    obtain ⟨hgrows, hsealed⟩ := hfirst _ _ rfl
    obtain ⟨hgrows', hmore⟩ := ih hgrows.sealed fun g' hg' => (h.2 g' hg').mono hgrows.size_le
    exact ⟨hgrows.trans hgrows', (hsealed.mono hgrows'.size_le).append hmore⟩

end Constants

/-! ### Programs -/

namespace ProgramInlining

/-- What a run over a program has to keep. -/
structure Sealed (s : ProgramInlining) : Prop where
  functions : Templates.Sealed s.literals.size s.functions
  constants : Templates.Sealed s.literals.size s.constants
  literals : ∀ raw ∈ s.literals.texts, mark ∉ raw

/-- The literals of a state, and those that its tables can still add. -/
def room (tables : Tables) (s : ProgramInlining) : Nat :=
  s.literals.size + unseen tables.functions s.functions + unseen tables.constants s.constants

/-- What one state keeps of another. -/
structure Grows (tables : Tables) (s s' : ProgramInlining) : Prop where
  sealed : s'.Sealed
  size_le : s.literals.size ≤ s'.literals.size
  room_le : s'.room tables ≤ s.room tables

variable {tables : Tables} {s s₁ s₂ : ProgramInlining}

theorem Sealed.refl (h : s.Sealed) : s.Grows tables s := ⟨h, Nat.le_refl _, Nat.le_refl _⟩

theorem Grows.trans (h : s.Grows tables s₁) (h' : s₁.Grows tables s₂) : s.Grows tables s₂ :=
  ⟨h'.sealed, Nat.le_trans h.size_le h'.size_le, Nat.le_trans h'.room_le h.room_le⟩

end ProgramInlining

/-- No text of the tables of a run has a mark. -/
structure Tables.Clean (tables : Tables) : Prop where
  functions : tables.functions.Clean
  constants : tables.constants.Clean

namespace Tables

variable {tables : Tables} {s : ProgramInlining}

theorem sealed_inlineCallsIn (htables : tables.Clean) (hs : s.Sealed) {t : Text}
    (ht : Sealed s.literals.size t) :
    s.Grows tables (tables.inlineCallsIn s t).2 ∧
      Sealed (tables.inlineCallsIn s t).2.literals.size (tables.inlineCallsIn s t).1 := by
  rw [inlineCallsIn]
  split
  · exact ⟨hs.refl, ht⟩
  · have hstate : Inlining.Sealed ⟨s.functions, s.literals, s.journal⟩ :=
      ⟨hs.functions, hs.literals⟩
    obtain ⟨hgrows, hsealed⟩ := (inlining_sealed htables.functions).1 _ [] t hstate .nil ht
    refine ⟨⟨⟨hgrows.sealed.templates, hs.constants.mono hgrows.size_le, hgrows.sealed.literals⟩,
      hgrows.size_le, ?_⟩, hsealed⟩
    exact Nat.add_le_add_right hgrows.room_le _

theorem sealed_inlineConstantsIn (htables : tables.Clean) (hidden : List Text) (hs : s.Sealed)
    {t : Text} (ht : Sealed s.literals.size t) :
    s.Grows tables (tables.inlineConstantsIn hidden s t).2 ∧
      Sealed (tables.inlineConstantsIn hidden s t).2.literals.size
      (tables.inlineConstantsIn hidden s t).1 := by
  rw [inlineConstantsIn]
  split
  · exact ⟨hs.refl, ht⟩
  · have hstate : Inlining.Sealed ⟨s.constants, s.literals, s.journal⟩ :=
      ⟨hs.constants, hs.literals⟩
    obtain ⟨hgrows, hsealed⟩ := sealed_inlineSegments htables.constants hidden hstate ht.segments
    refine ⟨⟨⟨hs.functions.mono hgrows.size_le, hgrows.sealed.templates, hgrows.sealed.literals⟩,
      hgrows.size_le, ?_⟩, hsealed⟩
    have := hgrows.room_le
    simp only [Inlining.room, ProgramInlining.room, inlineConstants] at this ⊢
    omega

end Tables
end Substitution
end ScriptMinifier
