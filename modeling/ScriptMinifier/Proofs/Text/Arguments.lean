import ScriptMinifier.Proofs.Text.Nesting
import ScriptMinifier.Proofs.Text.Outside

/-! Argument lists, joined and taken apart.

An argument is `Grouped`: its parentheses and brackets are properly nested and its commas stand
between them, and what its placeholders hold does not count. The parenthesis that closes a list is
looked for by parentheses alone and the commas that part it by brackets of both kinds, yet on
arguments joined by commas the two agree. In any text the closing parenthesis is the first one that
closes more than has been opened outside placeholders (`findsFirst_closeFrom`). Both together are
`argumentLists_taken_apart`. -/
namespace ScriptMinifier.Text

/-! ### Arguments -/

/-- A text whose parentheses and brackets are properly nested, outside its placeholders, which are
closed. `inside` says whether it stands between some of them; commas stand nowhere else. -/
inductive Grouped : Bool → Text → Prop
  | nil {inside : Bool} : Grouped inside []
  | char {inside : Bool} {c : Char} {t : Text} (hmark : c ≠ mark)
      (hbracket : c ∉ ['(', ')', '[', ']'])
      (hcomma : c = ',' → inside = true) (ht : Grouped inside t) : Grouped inside (c :: t)
  | placeholder {inside : Bool} {u t : Text} (hu : mark ∉ u) (ht : Grouped inside t) :
      Grouped inside (mark :: u ++ mark :: t)
  | parentheses {inside : Bool} {s t : Text} (hs : Grouped true s) (ht : Grouped inside t) :
      Grouped inside ('(' :: s ++ ')' :: t)
  | brackets {inside : Bool} {s t : Text} (hs : Grouped true s) (ht : Grouped inside t) :
      Grouped inside ('[' :: s ++ ']' :: t)

variable {inside : Bool} {s t : Text} {c : Char} {depth depth' k : Nat} {hidden hidden' : Bool}

theorem Nested.append (hs : Nested s) (ht : Nested t) : Nested (s ++ t) := by
  induction hs with
  | nil => exact ht
  | char hmark hopen hclose _ ih => exact .char hmark hopen hclose ih
  | placeholder hu _ ih =>
    rw [List.append_assoc]
    exact .placeholder hu ih
  | group hs _ _ ih =>
    rw [List.append_assoc]
    exact .group hs ih

theorem Grouped.nested (h : Grouped inside s) : Nested s := by
  induction h with
  | nil => exact .nil
  | char hmark hbracket _ _ ih =>
    simp only [List.mem_cons, not_or] at hbracket
    exact .char hmark hbracket.1 hbracket.2.1 ih
  | placeholder hu _ ih => exact .placeholder hu ih
  | parentheses _ _ ihs iht => exact .group ihs iht
  | brackets _ _ ihs iht =>
    exact .char (by decide) (by decide) (by decide)
      (ihs.append (.char (by decide) (by decide) (by decide) iht))

theorem nested_joined {args : List Text} (h : ∀ arg ∈ args, Grouped inside arg) :
    Nested (joined ',' args) := by
  match args with
  | [] => exact .nil
  | [arg] => simpa [joined, List.intercalate] using (h arg List.mem_cons_self).nested
  | first :: second :: more =>
    rw [List.forall_mem_cons] at h
    rw [joined_cons_cons]
    exact h.1.nested.append (.char (by decide) (by decide) (by decide) (nested_joined h.2))

theorem modifyHead_modifyHead_append (s t : Text) {ts : List Text} :
    (ts.modifyHead (t ++ ·)).modifyHead (s ++ ·) = ts.modifyHead (s ++ t ++ ·) := by
  cases ts <;> simp

/-- A character that does not part a list goes to its first argument. -/
theorem argumentsFrom_cons (depth' : Nat) (hmark : c ≠ mark)
    (hdepth : depth' = if c = '(' ∨ c = '[' then depth + 1 else if c = ')' ∨
      c = ']' then depth - 1 else depth)
    (hcomma : ¬ (c = ',' ∧ depth = 0)) :
    argumentsFrom depth false (c :: t) = (argumentsFrom depth' false t).modifyHead ([c] ++ ·) := by
  rw [argumentsFrom, if_neg Bool.false_ne_true, if_neg hmark, if_neg hcomma, hdepth]
  split
  · exact extendFirst_eq_modifyHead c (argumentsFrom_ne_nil _ _ _)
  · split <;> exact extendFirst_eq_modifyHead c (argumentsFrom_ne_nil _ _ _)

/-- A grouped text goes to the first argument of a list whole. -/
theorem argumentsFrom_grouped (h : Grouped inside s) (hdepth : inside = true → depth ≠ 0)
    (t : Text) :
    argumentsFrom depth false (s ++ t) = (argumentsFrom depth false t).modifyHead (s ++ ·) := by
  induction h generalizing depth t with
  | nil => cases hargs : argumentsFrom depth false t <;> simp [hargs]
  | @char inside c s hmark hbracket hcomma _ ih =>
    simp only [List.mem_cons, List.not_mem_nil, or_false, not_or] at hbracket
    rw [List.cons_append,
      argumentsFrom_cons depth hmark (by simp [hbracket]) fun h => hdepth (hcomma h.1) h.2,
      ih hdepth, modifyHead_modifyHead_append]
    rfl
  | @placeholder inside u s hu _ ih =>
    rw [List.append_assoc, List.cons_append, List.cons_append, argumentsFrom,
      if_neg Bool.false_ne_true, if_pos rfl, argumentsFrom_hidden hu, ih hdepth,
      extendFirst_modifyHead mark _ (by simpa using argumentsFrom_ne_nil depth false t),
      modifyHead_modifyHead_append]
    simp
  | @parentheses inside a b _ _ iha ihb =>
    rw [List.append_assoc, List.cons_append, List.cons_append,
      argumentsFrom_cons (depth + 1) (by decide) rfl (by simp),
      iha (fun _ => Nat.succ_ne_zero depth), argumentsFrom_cons depth (by decide) rfl (by simp),
      ihb hdepth]
    simp only [modifyHead_modifyHead_append]
    simp
  | @brackets inside a b _ _ iha ihb =>
    rw [List.append_assoc, List.cons_append, List.cons_append,
      argumentsFrom_cons (depth + 1) (by decide) rfl (by simp),
      iha (fun _ => Nat.succ_ne_zero depth), argumentsFrom_cons depth (by decide) rfl (by simp),
      ihb hdepth]
    simp only [modifyHead_modifyHead_append]
    simp

/-- Arguments joined by commas are the arguments of their list. -/
theorem argumentsFrom_joined {args : List Text} (hne : args ≠ [])
    (h : ∀ arg ∈ args, Grouped false arg) :
    argumentsFrom 0 false (joined ',' args) = args := by
  induction args with
  | nil => exact absurd rfl hne
  | cons first more ih =>
    rw [List.forall_mem_cons] at h
    have hopen : false = true → 0 ≠ 0 := fun h => absurd h Bool.false_ne_true
    cases more with
    | nil =>
      simpa [joined, List.intercalate, argumentsFrom] using argumentsFrom_grouped h.1 hopen []
    | cons second more =>
      rw [joined_cons_cons, argumentsFrom_grouped h.1 hopen, argumentsFrom,
        if_neg Bool.false_ne_true, if_neg (by decide), if_neg (by decide), if_neg (by decide),
        if_pos ⟨rfl, rfl⟩, ih (by simp) h.2]
      simp

/-! ### The closing parenthesis -/

/-- Whether a parenthesis at a byte position closes more than has been opened, outside
placeholders. -/
def ClosesAt (t : Text) (k : Nat) : Prop :=
  ∃ before after, t = before ++ ')' :: after ∧ byteLength before = k ∧
    hiddenAfter false before = false ∧
    (outside (before ++ [')'])).count '(' < (outside (before ++ [')'])).count ')'

/-- The same for a text before which `depth` parentheses are open, and maybe a placeholder. -/
def ClosesFrom (depth : Nat) (hidden : Bool) (t : Text) (k : Nat) : Prop :=
  ∃ before after, t = before ++ ')' :: after ∧ byteLength before = k ∧
    hiddenAfter hidden before = false ∧
    depth + (outsideFrom hidden before).count '(' ≤ (outsideFrom hidden before).count ')'

theorem closesAt_iff : ClosesAt t k ↔ ClosesFrom 0 false t k := by
  have hcount : ∀ before, hiddenAfter false before = false →
      ((outside (before ++ [')'])).count '(' < (outside (before ++ [')'])).count ')' ↔
        0 + (outsideFrom false before).count '(' ≤ (outsideFrom false before).count ')') := by
    intro before hopen
    rw [outside_eq_outsideFrom, outsideFrom_append, hopen,
      show outsideFrom false [')'] = [')'] from rfl, List.count_append, List.count_append,
      show [')'].count '(' = 0 from rfl, show [')'].count ')' = 1 from rfl]
    omega
  constructor
  · rintro ⟨before, after, ht, hk, hopen, hmore⟩
    exact ⟨before, after, ht, hk, hopen, (hcount before hopen).1 hmore⟩
  · rintro ⟨before, after, ht, hk, hopen, hmore⟩
    exact ⟨before, after, ht, hk, hopen, (hcount before hopen).2 hmore⟩

theorem not_closesFrom_nil : ¬ ClosesFrom depth hidden [] k := by
  rintro ⟨before, after, ht, -⟩
  simp at ht

/-- The positions in a text are those behind its first character, unless this one closes. -/
theorem closesFrom_cons (hfirst : c = ')' → hidden = true ∨ depth ≠ 0)
    (hhidden : hidden' = if c = mark then !hidden else hidden)
    (hcount : ∀ before : Text, depth + (outsideFrom hidden (c :: before)).count '(' ≤
      (outsideFrom hidden (c :: before)).count ')' ↔
      depth' + (outsideFrom hidden' before).count '(' ≤ (outsideFrom hidden' before).count ')') :
    ClosesFrom depth hidden (c :: t) k ↔ ∃ j, k = c.utf8Size + j ∧
    ClosesFrom depth' hidden' t j := by
  constructor
  · rintro ⟨before, after, ht, hk, hopen, hmore⟩
    cases before with
    | nil =>
      rcases hfirst (List.cons.inj ht).1 with hhide | hdepth
      · rw [hhide] at hopen
        cases hopen
      · exact absurd (Nat.le_zero.1 hmore) hdepth
    | cons d before =>
      obtain ⟨rfl, htail⟩ := List.cons.inj ht
      refine ⟨byteLength before, hk.symm, before, after, htail, rfl, ?_, (hcount before).1 hmore⟩
      rwa [hhidden]
  · rintro ⟨j, rfl, before, after, rfl, rfl, hopen, hmore⟩
    refine ⟨c :: before, after, rfl, rfl, ?_, (hcount before).2 hmore⟩
    rwa [hhidden] at hopen

/-- The search finds a position just when it is the first that closes. -/
abbrev FindsFirst (depth : Nat) (hidden : Bool) (t : Text) (k : Nat) : Prop :=
  ((closeFrom depth hidden t).map fun cut => byteLength cut.1) = some k ↔
    IsLeast {j | ClosesFrom depth hidden t j} k

/-- Where the search goes on behind the first character, so do the positions. -/
theorem FindsFirst.onward (h : ∀ j, FindsFirst depth' hidden' t j)
    (hclose : closeFrom depth hidden (c :: t) = extendCut c (closeFrom depth' hidden' t))
    (hfirst : c = ')' → hidden = true ∨ depth ≠ 0)
    (hhidden : hidden' = if c = mark then !hidden else hidden) (hcount : ∀ before : Text,
      depth + (outsideFrom hidden (c :: before)).count '(' ≤
      (outsideFrom hidden (c :: before)).count ')' ↔
        depth' + (outsideFrom hidden' before).count '(' ≤ (outsideFrom hidden' before).count ')') :
    FindsFirst depth hidden (c :: t) k := by
  have hset : {j | ClosesFrom depth hidden (c :: t) j} =
      (c.utf8Size + ·) '' {j | ClosesFrom depth' hidden' t j} := by
    ext j
    rw [Set.mem_ofPred_eq, closesFrom_cons hfirst hhidden hcount]
    exact exists_congr fun i => by rw [Set.mem_ofPred_eq, and_comm, eq_comm]
  rw [FindsFirst, hclose, extendCut, Option.map_map, hset]
  constructor
  · intro hsome
    obtain ⟨cut, hcut, rfl⟩ := Option.map_eq_some_iff.1 hsome
    have hleast := (h (byteLength cut.1)).1 (by rw [hcut]; rfl)
    exact (show Monotone (c.utf8Size + ·) from fun _ _ h => Nat.add_le_add_left h _).map_isLeast
      hleast
  · rintro ⟨⟨j, hj, rfl⟩, hlower⟩
    have hleast : IsLeast {j | ClosesFrom depth' hidden' t j} j :=
      ⟨hj, fun i hi => Nat.le_of_add_le_add_left (hlower ⟨i, hi, rfl⟩)⟩
    obtain ⟨cut, hcut, hlength⟩ := Option.map_eq_some_iff.1 ((h j).2 hleast)
    rw [hcut, ← hlength]
    rfl

/-- The search finds the first parenthesis that closes more than has been opened. -/
theorem findsFirst_closeFrom (depth : Nat) (hidden : Bool) (t : Text) (k : Nat) :
    FindsFirst depth hidden t k := by
  induction t generalizing depth hidden k with
  | nil => exact iff_of_false nofun fun h => not_closesFrom_nil h.1
  | cons c rest ih =>
    cases hidden with
    | true =>
      by_cases hc : c = mark
      · refine .onward (ih depth false) ?_ (fun _ => .inl rfl)
          (by rw [if_pos hc]; rfl) fun before => ?_
        · rw [closeFrom, if_pos rfl, hc]
          rfl
        · rw [outsideFrom, if_pos hc, Bool.not_true]
      · refine .onward (ih depth true) ?_ (fun _ => .inl rfl) (by rw [if_neg hc]) fun before => ?_
        · rw [closeFrom, if_pos rfl, bne_iff_ne.2 hc]
        · rw [outsideFrom, if_neg hc, if_pos rfl]
    | false =>
      by_cases hc : c = mark
      · refine .onward (ih depth true) ?_ (fun h => absurd (hc.symm.trans h) (by decide))
          (by rw [if_pos hc]; rfl)
          fun before => ?_
        · rw [closeFrom, if_neg Bool.false_ne_true, if_pos hc]
        · rw [outsideFrom, if_pos hc, Bool.not_false]
      have hcons : ∀ before, outsideFrom false (c :: before) = c :: outsideFrom false before := by
        intro before
        rw [outsideFrom, if_neg hc, if_neg Bool.false_ne_true]
      have hb : false = if c = mark then !false else false := by rw [if_neg hc]
      by_cases hopen : c = '('
      · refine .onward (ih (depth + 1) false) ?_ (fun h => absurd (hopen.symm.trans h) (by decide))
          hb fun before => ?_
        · rw [closeFrom, if_neg Bool.false_ne_true, if_neg hc, if_pos hopen]
        · rw [hcons, hopen, List.count_cons_self, List.count_cons_of_ne (by decide)]
          omega
      by_cases hshut : c = ')'
      · by_cases hzero : depth = 0
        · have hfirst : ClosesFrom depth false (c :: rest) 0 :=
            ⟨[], rest, by rw [hshut]; rfl, rfl, rfl, by simp [hzero, outsideFrom]⟩
          rw [FindsFirst, closeFrom, if_neg Bool.false_ne_true, if_neg hc, if_neg hopen,
            if_pos hshut, if_pos hzero]
          constructor
          · intro hsome
            rw [← Option.some.inj hsome]
            exact ⟨hfirst, fun _ _ => Nat.zero_le _⟩
          · intro hleast
            rw [Nat.le_zero.1 (hleast.2 hfirst)]
            rfl
        · refine .onward (ih (depth - 1) false) ?_ (fun _ => .inr hzero) hb fun before => ?_
          · rw [closeFrom, if_neg Bool.false_ne_true, if_neg hc, if_neg hopen, if_pos hshut,
              if_neg hzero]
          · rw [hcons, hshut, List.count_cons_self, List.count_cons_of_ne (by decide)]
            omega
      · refine .onward (ih depth false) ?_ (fun h => absurd h hshut) hb fun before => ?_
        · rw [closeFrom, if_neg Bool.false_ne_true, if_neg hc, if_neg hopen, if_neg hshut]
        · rw [hcons, List.count_cons_of_ne hopen, List.count_cons_of_ne hshut]

theorem closePosition?_eq_some_iff : closePosition? t = some k ↔ IsLeast {j | ClosesAt t j} k := by
  have hset : {j | ClosesAt t j} = {j | ClosesFrom 0 false t j} := Set.ext fun j => closesAt_iff
  rw [hset]
  exact findsFirst_closeFrom 0 false t k

theorem closePosition?_eq_none_iff : closePosition? t = none ↔ ∀ j, ¬ ClosesAt t j := by
  constructor
  · intro hnone j hj
    obtain ⟨k, hk⟩ : ∃ k, IsLeast {j | ClosesAt t j} k := ⟨_, isLeast_csInf ⟨j, hj⟩⟩
    rw [closePosition?_eq_some_iff.2 hk] at hnone
    cases hnone
  · intro hnone
    cases hclose : closePosition? t with
    | none => rfl
    | some k => exact absurd (closePosition?_eq_some_iff.1 hclose).1 (hnone k)

/-! ### Lists -/

/-- **Arguments that are joined are taken apart again**: the list is closed by the parenthesis
behind it and its arguments are those that were joined. In every text the closing parenthesis is the
first that closes more than has been opened, if there is one. -/
theorem argumentLists_taken_apart :
    (∀ args : List Text, args ≠ [] → (∀ arg ∈ args, Grouped false arg) →
      (∃ c ∈ joined ',' args, isBlank c = false) →
        (∀ after, closePosition? (joined ',' args ++ ')' :: after) =
          some (byteLength (joined ',' args))) ∧
          arguments (joined ',' args) = args) ∧
      ∀ t, (∀ k, closePosition? t = some k ↔ IsLeast {j | ClosesAt t j} k) ∧
        (closePosition? t = none ↔ ∀ j, ¬ ClosesAt t j) := by
  refine ⟨fun args hne hargs hvisible => ⟨fun after => ?_, ?_⟩,
    fun t => ⟨fun k => closePosition?_eq_some_iff, closePosition?_eq_none_iff⟩⟩
  · rw [closePosition?, splitClose?_eq_some.2 ⟨nested_joined hargs, rfl⟩]
    rfl
  · obtain ⟨c, hmem, hc⟩ := hvisible
    have hnonempty : ¬ (trim (joined ',' args)).isEmpty = true := by
      rw [List.isEmpty_iff]
      exact List.ne_nil_of_mem (mem_trim hc hmem)
    rw [arguments, if_neg hnonempty, argumentsFrom_joined hne hargs]

/-- Commas between brackets, a placeholder that holds a comma and parentheses, and an argument that
is empty. -/
def mixedArguments : List Text := ["f(a,[b])".toList, "\x00,)(\x00é".toList, []]

theorem mixedArguments_taken_apart :
    (mixedArguments ≠ [] ∧ (∀ arg ∈ mixedArguments, Grouped false arg) ∧
        ∃ c ∈ joined ',' mixedArguments, isBlank c = false) ∧
      closePosition? (joined ',' mixedArguments ++ ")+g(x)".toList) = some 17 ∧
        arguments (joined ',' mixedArguments) = mixedArguments := by
  have hcall : Grouped false "f(a,[b])".toList := by
    refine .char (by decide) (by decide) (by decide) (.parentheses (s := "a,[b]".toList) ?_ .nil)
    refine .char (by decide) (by decide) (by decide)
      (.char (by decide) (by decide) (fun _ => rfl) ?_)
    exact .brackets (s := ['b']) (.char (by decide) (by decide) (by decide) .nil) .nil
  have hheld : Grouped false "\x00,)(\x00é".toList :=
    .placeholder (u := ",)(".toList) (by decide) (.char (by decide) (by decide) (by decide) .nil)
  have hne : mixedArguments ≠ [] := by decide
  have hgrouped : ∀ arg ∈ mixedArguments, Grouped false arg := by
    simp only [mixedArguments, List.forall_mem_cons]
    exact ⟨hcall, hheld, .nil, nofun⟩
  have hvisible : ∃ c ∈ joined ',' mixedArguments, isBlank c = false := ⟨'f', by decide, by decide⟩
  obtain ⟨hclose, hsplit⟩ := argumentLists_taken_apart.1 mixedArguments hne hgrouped hvisible
  exact ⟨⟨hne, hgrouped, hvisible⟩, hclose "+g(x)".toList, hsplit⟩

end ScriptMinifier.Text
