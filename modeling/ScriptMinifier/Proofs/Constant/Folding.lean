import ScriptMinifier.Constant.Folding
import ScriptMinifier.Proofs.Text.Dictionary
import ScriptMinifier.Proofs.Text.Hexadecimal

/-! What folding does to the text that stays.

The text of a value is made of digits, letters, the minus sign and the point
(`Value.all_isSmooth_text`), so it holds neither dollar signs nor marks. A
declaration that stays has every folded name replaced in its value, one after the other in the
order in which they were folded (`declarations_fold`); a function has them replaced all at
once, except those it hides. -/
namespace ScriptMinifier.Constant

open Syntax (Declaration Function)
open Text (isPlain isSmooth isWordChar)

/-! ### The text of a value -/

theorem isWordChar_of_isDigit {c : Char} (h : c.isDigit = true) : isWordChar c = true := by
  rw [isWordChar, Char.isAlphanum, h, Bool.or_true, Bool.true_or]

section Digits

variable {q : Char → Bool} (hq : ∀ c : Char, c.isDigit = true → q c = true)

include hq

theorem all_ofNat (n : Nat) : (Text.ofNat n).all q = true := by
  rw [List.all_eq_true]
  intro c hc
  exact hq c (Nat.isDigit_of_mem_toDigits (by decide) (by decide) hc)

theorem all_replicate_zero (n : Nat) : (List.replicate n '0').all q = true := by
  rw [List.all_eq_true]
  intro c hc
  rw [List.eq_of_mem_replicate hc]
  exact hq '0' rfl

theorem Decimal.all_parts (d : Decimal) : d.parts.1.all q = true ∧ d.parts.2.all q = true := by
  rw [Decimal.parts]
  split
  · rw [List.all_append, all_ofNat hq, all_replicate_zero hq]
    exact ⟨rfl, rfl⟩
  · have hpadded : ∀ n, (List.replicate n '0' ++ Text.ofNat d.digits).all q = true := by
      intro n
      rw [List.all_append, all_ofNat hq, all_replicate_zero hq]
      rfl
    constructor
    · exact List.all_eq_true.2 fun c hc => List.all_eq_true.1 (hpadded _) c
        (List.mem_of_mem_take hc)
    · exact List.all_eq_true.2 fun c hc => List.all_eq_true.1 (hpadded _) c
        (List.mem_of_mem_drop hc)

end Digits

section Spelling

variable {q : Char → Bool} (hq : ∀ c : Char, c.isDigit = true ∨ c = '-' ∨ c = '.' → q c = true)

include hq

theorem all_ofInt (n : Int) : (Text.ofInt n).all q = true := by
  have hdigits := all_ofNat fun c hc => hq c (.inl hc)
  rw [Text.ofInt]
  split
  · rw [List.all_cons, hdigits, hq '-' (.inr (.inl rfl))]
    rfl
  · exact hdigits _

theorem Decimal.all_plain (d : Decimal) : d.plain.all q = true := by
  obtain ⟨hwhole, hplaces⟩ := d.all_parts fun c hc => hq c (.inl hc)
  show (if d.parts.2 = [] then d.parts.1 else d.parts.1 ++ '.' :: d.parts.2).all q = true
  split
  · exact hwhole
  · rw [List.all_append, List.all_cons, hwhole, hplaces, hq '.' (.inr (.inr rfl))]
    rfl

theorem Value.all_realText {x : Binary32} (h : x.plain.all q = true) :
    (Value.realText x).all q = true := by
  have hpoint : q '.' = true := hq '.' (.inr (.inr rfl))
  have hpointed : (if x.plain.contains '.' then x.plain else x.plain ++ ['.']).all q = true := by
    split
    · exact h
    · rw [List.all_append, h, List.all_cons, hpoint]
      rfl
  -- shortening only leaves characters out
  have hshort : ∀ t : Text, t.all q = true →
      (if t = ['.'] ∨ t = ['-', '.'] then ['0', '.'] else t).all q = true := by
    intro t ht
    split
    · rw [List.all_cons, List.all_cons, hq '0' (.inl rfl), hpoint]
      rfl
    · exact ht
  rw [Value.realText]
  generalize (if x.plain.contains '.' then x.plain else x.plain ++ ['.']) = pointed at hpointed ⊢
  split
  · rw [List.all_cons, Bool.and_eq_true] at hpointed
    exact hshort _ hpointed.2
  · rw [List.all_cons, List.all_cons, Bool.and_eq_true, Bool.and_eq_true] at hpointed
    refine hshort _ ?_
    rw [List.all_cons, hpointed.1, hpointed.2.2]
    rfl
  · exact hshort _ hpointed

variable (hletters : ("NaN".toList ++ "inf".toList ++ "true".toList ++ "false".toList).all q = true)

include hletters

theorem Binary32.all_plain (x : Binary32) : x.plain.all q = true := by
  simp only [List.all_append, Bool.and_eq_true] at hletters
  obtain ⟨⟨⟨hnan, hinf⟩, -⟩, -⟩ := hletters
  rw [Binary32.plain, Binary32.textWith]
  split
  · exact hnan
  · rw [List.all_append, Bool.and_eq_true]
    constructor
    · split
      · rw [List.all_cons, hq '-' (.inr (.inl rfl))]
        rfl
      · rfl
    · split
      · exact hinf
      · split
        · rw [List.all_cons, hq '0' (.inl rfl)]
          rfl
        · exact Decimal.all_plain hq _

/-- The text of a value is made of digits, the minus sign, the point and the letters of four
words. -/
theorem Value.all_text (v : Value) : v.text.all q = true := by
  cases v with
  | int n => exact all_ofInt hq n
  | real x => exact Value.all_realText hq (x.all_plain hq hletters)
  | bool b =>
    simp only [List.all_append, Bool.and_eq_true] at hletters
    cases b
    · exact hletters.2
    · exact hletters.1.2

end Spelling

theorem Value.all_isSmooth_text (v : Value) : v.text.all isSmooth = true := by
  refine v.all_text (fun c hc => ?_) (by decide)
  rcases hc with hdigit | rfl | rfl
  · exact Text.isSmooth_of_isWordChar (isWordChar_of_isDigit hdigit)
  · decide
  · decide

theorem Value.point_mem_realText (x : Binary32) : '.' ∈ Value.realText x := by
  have hpointed : '.' ∈ (if x.plain.contains '.' then x.plain else x.plain ++ ['.']) := by
    split
    · rename_i hpoint
      exact List.contains_iff_mem.1 hpoint
    · exact List.mem_append_right _ List.mem_cons_self
  have hshort :
      ∀ t : Text, '.' ∈ t → '.' ∈ (if t = ['.'] ∨ t = ['-', '.'] then ['0', '.'] else t) := by
    intro t ht
    split
    · decide
    · exact ht
  rw [Value.realText]
  generalize (if x.plain.contains '.' then x.plain else x.plain ++ ['.']) = pointed at hpointed ⊢
  split
  · exact hshort _ List.mem_cons_self
  · exact hshort _ (List.mem_cons_of_mem _ List.mem_cons_self)
  · exact hshort _ hpointed

theorem Value.text_ne_nil (v : Value) : v.text ≠ [] := by
  cases v with
  | int n =>
    rw [Value.text, Text.ofInt]
    split
    · simp
    · exact Nat.toDigits_ne_nil
  | real x => exact List.ne_nil_of_mem (Value.point_mem_realText x)
  | bool b => cases b <;> decide

/-! ### The declarations that stay -/

/-- The folded names with their values, in the order in which they were folded. -/
def foldedPairs (vs : List Verdict) : List (Text × Text) :=
  vs.filterMap fun
    | .folded name value => some (name, value)
    | .kept .. => none

/-- A text with names replaced one after the other. -/
def replaceInTurn (pairs : List (Text × Text)) (t : Text) : Text :=
  pairs.foldl (fun t pair => replaceName pair.1 pair.2 t) t

theorem mapValue_mapValue (f g : Text → Text) (d : Declaration) :
    (d.mapValue f).mapValue g = d.mapValue fun t => g (f t) := by
  simp [Declaration.mapValue, Function.comp_def]

theorem mapValue_id (d : Declaration) : d.mapValue (fun t => t) = d := by
  simp [Declaration.mapValue]

/-- A declaration that stays has every folded name replaced in its value. -/
theorem declarations_foldFrom (ls : Literals) (done ds : List Declaration) :
    ∃ retained : List Declaration, retained.Sublist ds ∧
      (foldFrom ls done ds).1 =
        (done.reverse ++ retained).map
          (Declaration.mapValue (replaceInTurn (foldedPairs (foldFrom ls done ds).2))) := by
  induction hn : ds.length generalizing done ds with
  | zero =>
    rw [List.length_eq_zero_iff] at hn
    subst hn
    refine ⟨[], List.Sublist.refl [], ?_⟩
    rw [foldFrom, List.append_nil]
    exact (List.map_id'' mapValue_id done.reverse).symm
  | succ n ih =>
    obtain ⟨d, rest, rfl⟩ := List.exists_cons_of_length_eq_add_one hn
    rw [List.length_cons, Nat.add_right_cancel_iff] at hn
    rw [foldFrom]
    split
    · rename_i name value _
      obtain ⟨retained, hsub, heq⟩ := ih (done.map (Declaration.mapValue (replaceName name value)))
        (rest.map (Declaration.mapValue (replaceName name value))) (by rw [List.length_map, hn])
      obtain ⟨stay, hstay, rfl⟩ := List.sublist_map_iff.1 hsub
      refine ⟨stay, hstay.cons d, heq.trans ?_⟩
      rw [← List.map_reverse, ← List.map_append, List.map_map]
      apply List.map_congr_left
      intro d' _
      exact mapValue_mapValue _ _ d'
    · obtain ⟨retained, hsub, heq⟩ := ih (d :: done) rest hn
      refine ⟨d :: retained, hsub.cons_cons d, ?_⟩
      rw [List.reverse_cons, List.append_assoc, List.singleton_append] at heq
      exact heq
    · obtain ⟨retained, hsub, heq⟩ := ih (d :: done) rest hn
      refine ⟨d :: retained, hsub.cons_cons d, ?_⟩
      rw [List.reverse_cons, List.append_assoc, List.singleton_append] at heq
      exact heq

/-- The declarations that folding a program leaves. -/
theorem declarations_fold (p : Program) :
    ∃ retained : List Declaration, retained.Sublist p.declarations ∧
      (fold p).declarations =
        retained.map (Declaration.mapValue (replaceInTurn (foldedPairs (verdicts p)))) := by
  obtain ⟨retained, hsub, heq⟩ := declarations_foldFrom p.literals [] p.declarations
  exact ⟨retained, hsub, heq⟩

/-! ### The names that are folded -/

/-- The names that folding a program replaces. -/
def foldedNames (p : Program) : List Text := (foldedPairs (verdicts p)).map Prod.fst

/-- A declaration is folded if it is a candidate and its value can be computed. -/
theorem verdict?_eq_folded {ls : Literals} {d : Declaration} {name value : Text} :
    verdict? ls d = some (.folded name value) ↔
      ∃ t v, candidateValue? d = some t ∧ evalAs ls d.type t = .ok v ∧ d.name = name ∧
      v.text = value := by
  rw [verdict?, Option.map_eq_some_iff]
  refine exists_congr fun t => ?_
  cases evalAs ls d.type t with
  | ok v => simp
  | error fault => simp

theorem name_of_verdict? {ls : Literals} {d : Declaration} {name value : Text}
    (h : verdict? ls d = some (.folded name value)) : name = d.name := by
  obtain ⟨t, v, -, -, hname, -⟩ := verdict?_eq_folded.1 h
  exact hname.symm

theorem foldedPairs_folded (name value : Text) (vs : List Verdict) :
    foldedPairs (.folded name value :: vs) = (name, value) :: foldedPairs vs := rfl

/-- Only declared names are folded. -/
theorem mem_names_of_mem_foldFrom {ls : Literals} {done ds : List Declaration} {name : Text}
    (h : name ∈ (foldedPairs (foldFrom ls done ds).2).map Prod.fst) :
    name ∈ ds.map Declaration.name := by
  induction hn : ds.length generalizing done ds with
  | zero =>
    rw [List.length_eq_zero_iff] at hn
    subst hn
    rw [foldFrom] at h
    cases h
  | succ n ih =>
    obtain ⟨d, rest, rfl⟩ := List.exists_cons_of_length_eq_add_one hn
    rw [List.length_cons, Nat.add_right_cancel_iff] at hn
    rw [foldFrom] at h
    split at h
    · rename_i folded value hv
      rcases List.mem_cons.1 h with rfl | h
      · rw [name_of_verdict? hv]
        exact List.mem_cons_self
      · have hrest := ih h (by rw [List.length_map, hn])
        rw [List.map_map] at hrest
        exact List.mem_cons_of_mem _ hrest
    · exact List.mem_cons_of_mem _ (ih h hn)
    · exact List.mem_cons_of_mem _ (ih h hn)

theorem foldedNames_subset (p : Program) : foldedNames p ⊆ p.declarationNames :=
  fun _ h => mem_names_of_mem_foldFrom h

/-- What has been gone through stays, with the folded names replaced. -/
theorem mapValue_mem_foldFrom_of_done {ls : Literals} {done : List Declaration} {d : Declaration}
    (hd : d ∈ done) (ds : List Declaration) :
    d.mapValue (replaceInTurn (foldedPairs (foldFrom ls done ds).2)) ∈ (foldFrom ls done ds).1 := by
  obtain ⟨retained, -, heq⟩ := declarations_foldFrom ls done ds
  rw [heq]
  exact List.mem_map_of_mem (List.mem_append_left _ (List.mem_reverse.2 hd))

theorem mapValue_mem_foldFrom {ls : Literals} {done ds : List Declaration} {d : Declaration}
    (hd : d ∈ ds) (hname : d.name ∉ (foldedPairs (foldFrom ls done ds).2).map Prod.fst) :
    d.mapValue (replaceInTurn (foldedPairs (foldFrom ls done ds).2)) ∈ (foldFrom ls done ds).1 := by
  induction hn : ds.length generalizing done ds d with
  | zero =>
    rw [List.length_eq_zero_iff] at hn
    subst hn
    cases hd
  | succ n ih =>
    obtain ⟨first, rest, rfl⟩ := List.exists_cons_of_length_eq_add_one hn
    rw [List.length_cons, Nat.add_right_cancel_iff] at hn
    cases hv : verdict? ls first with
    | none =>
      simp only [foldFrom, hv] at hname ⊢
      rcases List.mem_cons.1 hd with rfl | hd
      · exact mapValue_mem_foldFrom_of_done List.mem_cons_self rest
      · exact ih hd hname hn
    | some verdict =>
      cases verdict with
      | kept name fault =>
        simp only [foldFrom, hv] at hname ⊢
        rcases List.mem_cons.1 hd with rfl | hd
        · exact mapValue_mem_foldFrom_of_done List.mem_cons_self rest
        · exact ih hd hname hn
      | folded name value =>
        simp only [foldFrom, hv, foldedPairs_folded, List.map_cons, List.mem_cons,
          not_or] at hname ⊢
        rcases List.mem_cons.1 hd with rfl | hd
        · exact absurd (name_of_verdict? hv).symm hname.1
        · have hrest := ih (List.mem_map_of_mem hd) hname.2 (by rw [List.length_map, hn])
          rwa [mapValue_mapValue] at hrest

/-- A declaration whose name is not folded stays, with the folded names replaced in its
value. -/
theorem mapValue_mem_fold {p : Program} {d : Declaration} (hd : d ∈ p.declarations)
    (hname : d.name ∉ foldedNames p) :
    d.mapValue (replaceInTurn (foldedPairs (verdicts p))) ∈ (fold p).declarations :=
  mapValue_mem_foldFrom hd hname

/-! ### Only values are put in -/

/-- Every verdict is one on a declaration, though perhaps not as it was in the beginning. -/
theorem exists_verdict?_of_mem_foldFrom {ls : Literals} {done ds : List Declaration}
    {verdict : Verdict}
    (h : verdict ∈ (foldFrom ls done ds).2) : ∃ d, verdict? ls d = some verdict := by
  induction hn : ds.length generalizing done ds with
  | zero =>
    rw [List.length_eq_zero_iff] at hn
    subst hn
    rw [foldFrom] at h
    cases h
  | succ n ih =>
    obtain ⟨d, rest, rfl⟩ := List.exists_cons_of_length_eq_add_one hn
    rw [List.length_cons, Nat.add_right_cancel_iff] at hn
    rw [foldFrom] at h
    split at h
    · rename_i name value hv
      rcases List.mem_cons.1 h with rfl | h
      · exact ⟨d, hv⟩
      · exact ih h (by rw [List.length_map, hn])
    · rename_i name fault hv
      rcases List.mem_cons.1 h with rfl | h
      · exact ⟨d, hv⟩
      · exact ih h hn
    · exact ih h hn

/-- A name is folded to what a text evaluates to. -/
theorem exists_evalAs_of_mem_foldedPairs {ls : Literals} {done ds : List Declaration}
    {name value : Text} (h : (name, value) ∈ foldedPairs (foldFrom ls done ds).2) :
    ∃ type t v, evalAs ls type t = .ok v ∧ v.text = value := by
  rw [foldedPairs, List.mem_filterMap] at h
  obtain ⟨verdict, hmem, heq⟩ := h
  cases verdict with
  | kept => cases heq
  | folded name' value' =>
    cases heq
    obtain ⟨d, hd⟩ := exists_verdict?_of_mem_foldFrom hmem
    obtain ⟨t, v, -, hv, -, hvalue⟩ := verdict?_eq_folded.1 hd
    exact ⟨d.type, t, v, hv, hvalue⟩

/-- A folded name stands for the text of a value. -/
theorem exists_value_of_mem_foldedPairs {p : Program} {name value : Text}
    (h : (name, value) ∈ foldedPairs (verdicts p)) : ∃ v : Value, value = v.text := by
  obtain ⟨-, -, v, -, hv⟩ := exists_evalAs_of_mem_foldedPairs h
  exact ⟨v, hv.symm⟩

theorem all_isPlain_of_mem_foldedPairs {p : Program} {name value : Text}
    (h : (name, value) ∈ foldedPairs (verdicts p)) : ∀ c ∈ value, isPlain c = true := by
  obtain ⟨v, rfl⟩ := exists_value_of_mem_foldedPairs h
  exact fun c hc => Text.isPlain_of_isSmooth (List.all_eq_true.1 v.all_isSmooth_text c hc)

end ScriptMinifier.Constant
