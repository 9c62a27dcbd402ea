import ScriptMinifier.Proofs.Text.Nesting
import ScriptMinifier.Substitution.Table

/-! Calls in a text.

A call is a whole word of a table with a closed argument list after it (`IsCall`). A text is cut
into its outermost calls and what stands between them if each of its calls lies in one of those
(`Outermost`). A text that starts with a character, a word that is no call, a placeholder or a call
is cut after it, and so step by step to its end (`Outermost.other`, `Outermost.word`,
`Outermost.literal`, `Outermost.call`), and there is one way to cut it (`Outermost.alike`). -/
namespace ScriptMinifier.Substitution

open Text (Nested StartsNoWord arguments closeFrom isWordChar mark splitClose?)

/-! ### Calls in a text -/

/-- A call as it stands. -/
def callText (name inside : Text) : Text := name ++ '(' :: inside ++ [')']

/-- A call of a name in the table, where `before` is what stands before it: the name is a whole word
outside placeholders, and what stands in the parentheses is nested. -/
structure IsCall (table : Table) (before name inside : Text) : Prop where
  outside : before.count mark % 2 = 0
  whole : ∀ c ∈ before.getLast?, isWordChar c = false
  ne_nil : name ≠ []
  word : ∀ c ∈ name, isWordChar c = true
  listed : table.find? name ≠ none
  closed : Nested inside

/-- A stretch of a text. -/
inductive Item
  | kept (t : Text)
  /-- A call with its template and its arguments after inlining. -/
  | call (name inside template : Text) (args : List Text)

namespace Item

/-- What the text has. -/
def source : Item → Text
  | kept t => t
  | call name inside _ _ => callText name inside

end Item

/-- A text cut into its outermost calls and what stands between them. -/
structure Outermost (table : Table) (t : Text) (items : List Item) : Prop where
  source : items.flatMap Item.source = t
  calls : ∀ before name inside template args after,
    items = before ++ .call name inside template args :: after →
    IsCall table (before.flatMap Item.source) name inside
  /-- Every call lies in one of them. -/
  covered : ∀ before name inside after, t = before ++ callText name inside ++ after →
    IsCall table before name inside →
    ∃ left name' inside' template args right,
      items = left ++ .call name' inside' template args :: right ∧
      left.flatMap Item.source <+: before ∧ right.flatMap Item.source <:+ after

/-! ### Cutting -/

section Cutting

variable {table : Table} {before name inside after t u w : Text} {c : Char} {item : Item}
  {items : List Item}

theorem callText_append (name inside t : Text) :
    callText name inside ++ t = name ++ '(' :: (inside ++ ')' :: t) := by
  simp [callText]

theorem callText_ne_nil (name inside : Text) : callText name inside ≠ [] := by
  simp [callText]

namespace IsCall

theorem exists_cons (h : IsCall table before name inside) :
    ∃ c rest, name = c :: rest ∧ isWordChar c = true := by
  obtain ⟨c, rest, rfl⟩ := List.exists_cons_of_ne_nil h.ne_nil
  exact ⟨c, rest, rfl, h.word c List.mem_cons_self⟩

/-- A call is no place where no word starts. -/
theorem not_startsNoWord (h : IsCall table before name inside) (t : Text) :
    ¬ StartsNoWord (callText name inside ++ t) := by
  intro hstart
  obtain ⟨c, rest, rfl, hc⟩ := h.exists_cons
  rw [hstart c _ rfl] at hc
  cases hc

theorem nested (h : IsCall table before name inside) : Nested (callText name inside) := by
  rw [callText, List.append_assoc]
  exact .of_word h.word (.group h.closed .nil)

/-- A call stays one when more stands before it. -/
theorem append_left (h : IsCall table before name inside) (heven : u.count mark % 2 = 0)
    (hlast : before = [] → ∀ c ∈ u.getLast?, isWordChar c = false) :
    IsCall table (u ++ before) name inside where
  outside := by
    rw [List.count_append, Nat.add_mod, heven, h.outside]
  whole := by
    by_cases hnil : before = []
    · rw [hnil, List.append_nil]
      exact hlast hnil
    · rw [List.getLast?_append_of_ne_nil _ hnil]
      exact h.whole
  ne_nil := h.ne_nil
  word := h.word
  listed := h.listed
  closed := h.closed

theorem of_append_left (h : IsCall table (u ++ before) name inside) (heven : u.count mark % 2 = 0) :
    IsCall table before name inside where
  outside := by
    have := h.outside
    rw [List.count_append] at this
    omega
  whole := by
    by_cases hnil : before = []
    · rw [hnil]
      nofun
    · rw [← List.getLast?_append_of_ne_nil u hnil]
      exact h.whole
  ne_nil := h.ne_nil
  word := h.word
  listed := h.listed
  closed := h.closed

/-- Of a word, a call has all or nothing. -/
theorem word_cases (h : IsCall table before name inside) (hw : ∀ c ∈ w, isWordChar c = true)
    (ht : StartsNoWord t)
    (hsplit : w ++ t = before ++ (name ++ '(' :: u)) :
    before = [] ∧ name = w ∧ t = '(' :: u ∨ w <+: before := by
  rcases List.append_eq_append_iff.1 hsplit with ⟨v, rfl, -⟩ | ⟨v, rfl, hrest⟩
  · exact .inr (List.prefix_append _ _)
  · have hnil : before = [] := by
      by_contra hne
      have hlast := List.getLast?_eq_some_getLast hne
      have := h.whole _ hlast
      rw [hw _ (List.mem_append_left _ (List.getLast_mem hne))] at this
      cases this
    refine .inl ⟨hnil, ?_⟩
    have hv : ∀ c ∈ v, isWordChar c = true := fun c hc => hw c (List.mem_append_right _ hc)
    rw [hnil, List.nil_append]
    -- both words end where the other does
    rcases List.append_eq_append_iff.1 hrest with ⟨x, rfl, hx⟩ | ⟨x, rfl, hx⟩
    · cases x with
      | nil => exact ⟨(List.append_nil _).symm, hx.symm⟩
      | cons c x =>
        have := hv c (by simp)
        rw [← (List.cons.inj hx).1] at this
        cases this
    · cases x with
      | nil => exact ⟨List.append_nil _, hx⟩
      | cons c x =>
        have := h.word c (by simp)
        rw [ht c _ hx] at this
        cases this

theorem of_any (h : IsCall table before name inside) : IsCall table [] name inside :=
  ⟨rfl, nofun, h.ne_nil, h.word, h.listed, h.closed⟩

/-- At one place there is one call. -/
theorem unique {name' inside' u' : Text} (h : IsCall table before name inside)
    (h' : IsCall table before name' inside')
    (heq : callText name inside ++ u = callText name' inside' ++ u') :
    name = name' ∧ inside = inside' ∧ u = u' := by
  have hstart : StartsNoWord ('(' :: (inside ++ ')' :: u)) :=
    Text.startsNoWord_of_isOtherChar (by decide) _
  rw [callText_append, callText_append] at heq
  rcases h'.of_any.word_cases h.word hstart heq with ⟨-, rfl, hrest⟩ | hprefix
  · have hcut := Text.closeFrom_zero_nested h.closed u
    rw [(List.cons.inj hrest).2, Text.closeFrom_zero_nested h'.closed] at hcut
    obtain ⟨rfl, rfl⟩ := Prod.mk.inj (Option.some.inj hcut)
    exact ⟨rfl, rfl, rfl⟩
  · exact absurd (List.prefix_nil.1 hprefix) h.ne_nil

end IsCall

namespace Outermost

theorem nil : Outermost table [] [] where
  source := rfl
  calls := by simp
  covered := by
    intro before name inside after h
    simp [callText] at h

/-- One more stretch before a text. A call that starts in it must be the stretch itself, or lie in
it. -/
theorem cons (item : Item) (h : Outermost table t items)
    (heven : t ≠ [] → item.source.count mark % 2 = 0)
    (hend : ∀ c ∈ item.source.getLast?, isWordChar c = true → StartsNoWord t)
    (hcall : ∀ name inside template args, item = .call name inside template args →
      IsCall table [] name inside)
    (hfirst : ∀ before name inside after,
      item.source ++ t = before ++ callText name inside ++ after →
      IsCall table before name inside →
        item.source <+: before ∨
        (∃ name inside template args, item = .call name inside template args) ∧ t <:+ after) :
    Outermost table (item.source ++ t) (item :: items) where
  source := by rw [List.flatMap_cons, h.source]
  calls := by
    intro before name inside template args after heq
    cases before with
    | nil => exact hcall name inside template args (List.cons.inj heq).1
    | cons first before =>
      rw [List.cons_append, List.cons.injEq] at heq
      obtain ⟨rfl, rfl⟩ := heq
      have hlater := h.calls before name inside template args after rfl
      have ht :
          t = before.flatMap Item.source ++
            (callText name inside ++ after.flatMap Item.source) := by
        rw [← h.source, List.flatMap_append, List.flatMap_cons]
        rfl
      refine hlater.append_left (heven ?_) fun hnil c hc => ?_
      · rw [ht, Ne, List.append_eq_nil_iff, List.append_eq_nil_iff]
        exact fun hnil => callText_ne_nil _ _ hnil.2.1
      · rw [hnil, List.nil_append] at ht
        exact Bool.eq_false_iff.2 fun hword => hlater.not_startsNoWord _ (ht ▸ hend c hc hword)
  covered := by
    intro before name inside after hsplit hcalled
    rcases hfirst before name inside after hsplit hcalled with
      ⟨before', rfl⟩ | ⟨⟨name', inside', template, args, rfl⟩, hafter⟩
    · rw [List.append_assoc, List.append_assoc] at hsplit
      have ht := List.append_cancel_left hsplit
      rw [← List.append_assoc] at ht
      have hne : t ≠ [] := by
        rw [ht, Ne, List.append_eq_nil_iff, List.append_eq_nil_iff]
        exact fun hnil => callText_ne_nil _ _ hnil.1.2
      obtain ⟨left, name', inside', template, args, right, rfl, hleft, hright⟩ :=
        h.covered before' name inside after ht (hcalled.of_append_left (heven hne))
      refine ⟨item :: left, name', inside', template, args, right, rfl, ?_, hright⟩
      rw [List.flatMap_cons]
      exact (List.prefix_append_right_inj _).2 hleft
    · exact ⟨[], name', inside', template, args, items, rfl, List.nil_prefix, h.source ▸ hafter⟩

/-- A character that is neither of a word nor a mark is passed over, -/
theorem other (h : Outermost table t items) (hmark : c ≠ mark) (hc : isWordChar c = false) :
    Outermost table (c :: t) (.kept [c] :: items) := by
  refine h.cons (.kept [c]) (fun _ => ?_) ?_ nofun ?_
  · rw [Item.source, List.count_cons_of_ne hmark]
    rfl
  · intro d hd hword
    obtain rfl : c = d := by simpa [Item.source] using hd
    rw [hc] at hword
    cases hword
  · intro before name inside after hsplit hcalled
    refine .inl ?_
    cases before with
    | nil =>
      obtain ⟨d, rest, rfl, hd⟩ := hcalled.exists_cons
      rw [← (List.cons.inj hsplit).1, hc] at hd
      cases hd
    | cons d before =>
      rw [← (List.cons.inj hsplit).1]
      exact ⟨before, rfl⟩

/-- a word that is no call, -/
theorem word (h : Outermost table t items) (hw : ∀ c ∈ w, isWordChar c = true) (ht : StartsNoWord t)
    (hplain : ∀ inside after, t = '(' :: inside ++ ')' :: after → Nested inside →
      table.find? w = none) :
    Outermost table (w ++ t) (.kept w :: items) := by
  refine h.cons (.kept w) (fun _ => ?_) (fun _ _ _ => ht) nofun ?_
  · rw [Item.source, List.count_eq_zero_of_not_mem fun hmem => ?_]
    exact Text.ne_mark_of_isWordChar (hw mark hmem) rfl
  · intro before name inside after hsplit hcalled
    refine .inl ?_
    rw [List.append_assoc, callText_append] at hsplit
    refine (hcalled.word_cases hw ht hsplit).resolve_left fun ⟨_, hname, hrest⟩ => ?_
    exact hcalled.listed (hname ▸ hplain inside after hrest hcalled.closed)

/-- and a placeholder. -/
theorem literal (h : Outermost table (Text.afterMark t) items) :
    Outermost table (mark :: t) (.kept (mark :: Text.throughMark t) :: items) := by
  have hsource :
      mark :: t = Item.source (.kept (mark :: Text.throughMark t)) ++ Text.afterMark t := by
    rw [Item.source, List.cons_append, Text.throughMark_append_afterMark]
  rw [hsource]
  refine h.cons _ (fun hne => ?_) ?_ nofun ?_
  · rcases Text.throughMark_cases t with ⟨u, hu, hthrough⟩ | ⟨-, -, hafter⟩
    · rw [Item.source, hthrough, List.count_cons_self, List.count_append,
        List.count_eq_zero_of_not_mem hu]
      rfl
    · exact absurd hafter hne
  · intro c hc hword
    rcases Text.throughMark_cases t with ⟨u, hu, hthrough⟩ | ⟨-, -, hafter⟩
    · rw [Item.source, hthrough, ← List.cons_append, List.getLast?_append] at hc
      obtain rfl : mark = c := by simpa using hc
      exact absurd (show isWordChar mark = true from hword) (by decide)
    · rw [hafter]
      exact fun _ _ h => nomatch h
  · intro before name inside after hsplit hcalled
    rw [← hsource] at hsplit
    refine .inl ?_
    cases before with
    | nil =>
      obtain ⟨d, rest, rfl, hd⟩ := hcalled.exists_cons
      rw [← (List.cons.inj hsplit).1] at hd
      exact absurd (show isWordChar mark = true from hd) (by decide)
    | cons d before =>
      rw [List.cons_append, List.cons_append, List.cons.injEq] at hsplit
      obtain ⟨rfl, ht⟩ := hsplit
      -- an even number of marks stands before the call, so the placeholder has been closed
      have hmem : mark ∈ before := by
        by_contra hnot
        have := hcalled.outside
        rw [List.count_cons_self, List.count_eq_zero_of_not_mem hnot] at this
        cases this
      obtain ⟨u, v, rfl, hu⟩ := List.eq_append_cons_of_mem hmem
      have hthrough : Text.throughMark t = u ++ [mark] := by
        rw [ht, List.append_assoc, List.append_assoc, List.cons_append, Text.throughMark_append hu]
      exact ⟨v, by simp [Item.source, hthrough]⟩

/-- A call is cut out whole, and no call reaches over its end. -/
theorem call (h : Outermost table t items) (hcalled : IsCall table [] name inside) (template : Text)
    (args : List Text) :
    Outermost table (callText name inside ++ t) (.call name inside template args :: items) := by
  refine h.cons (.call name inside template args) (fun _ => hcalled.nested.count_mark) ?_ ?_ ?_
  · intro c hc hword
    rw [Item.source, callText, List.getLast?_append] at hc
    obtain rfl : ')' = c := by simpa using hc
    cases hword
  · rintro _ _ _ _ ⟨⟩
    exact hcalled
  · intro before name' inside' after hsplit hcalled'
    have hstart : StartsNoWord ('(' :: (inside ++ ')' :: t)) :=
      Text.startsNoWord_of_isOtherChar (by decide) _
    have hcut : closeFrom 0 false (inside ++ ')' :: t) = some (inside, t) :=
      Text.closeFrom_zero_nested hcalled.closed t
    rw [Item.source, List.append_assoc] at hsplit
    have hwords := hsplit
    rw [callText_append, callText_append] at hwords
    rcases hcalled'.word_cases hcalled.word hstart hwords with ⟨rfl, -, -⟩ | ⟨before, rfl⟩
    · -- it is the call itself
      obtain ⟨-, -, rfl⟩ := hcalled.unique hcalled' hsplit
      exact .inr ⟨⟨_, _, _, _, rfl⟩, List.suffix_refl _⟩
    rw [callText_append, List.append_assoc, List.append_cancel_left_eq, callText_append] at hsplit
    cases before with
    | nil =>
      obtain ⟨d, rest, rfl, hd⟩ := hcalled'.exists_cons
      rw [← (List.cons.inj hsplit).1] at hd
      cases hd
    | cons d before =>
      rw [List.cons_append, List.cons.injEq] at hsplit
      obtain ⟨rfl, hrest⟩ := hsplit
      rw [hrest] at hcut
      rcases Text.closeFrom_append_cases hcut with ⟨more, hmore⟩ | ⟨depth, inside'', hcut⟩
      · -- it comes after the end
        rw [hmore, ← List.cons_append, ← List.append_assoc] at hrest
        rw [← List.append_cancel_right hrest]
        exact .inl ⟨more, by simp [Item.source, callText]⟩
      · -- it starts before the end, and so its own parenthesis closes before the end
        have hparity : before.count mark % 2 = 0 := by
          have heven := hcalled'.outside
          rw [List.count_append, List.count_eq_zero_of_not_mem fun hmem => ?_,
            List.count_cons_of_ne (by decide), Nat.zero_add] at heven
          · exact heven
          · exact Text.ne_mark_of_isWordChar (hcalled.word mark hmem) rfl
        have hshown : (false != decide (before.count mark % 2 = 1)) = false := by simp [hparity]
        rw [hshown, ← callText_append, Text.closeFrom_nested hcalled'.nested, Text.cutAfter,
          Option.map_eq_some_iff] at hcut
        obtain ⟨⟨inner, rest⟩, hinner, hpair⟩ := hcut
        obtain rfl : rest = t := (Prod.mk.inj hpair).2
        refine .inr ⟨⟨_, _, _, _, rfl⟩, ⟨inner ++ [')'], ?_⟩⟩
        rw [Text.closeFrom_eq_some hinner, List.append_assoc]
        rfl

end Outermost
end Cutting

/-! ### One way to cut -/

namespace Item

/-- A stretch in single characters, if it is not a call. -/
def chars : Item → List Item
  | kept t => t.map fun c => kept [c]
  | call name inside template args => [call name inside template args]

/-- One character or a call. -/
def Single : Item → Prop
  | kept t => ∃ c, t = [c]
  | call .. => True

/-- The same stretch, whatever is said of a call. -/
inductive Alike : Item → Item → Prop
  | kept (t : Text) : Alike (.kept t) (.kept t)
  | call (name inside template template' : Text) (args args' : List Text) :
      Alike (.call name inside template args) (.call name inside template' args')

theorem flatMap_source_chars (i : Item) : i.chars.flatMap source = i.source := by
  cases i with
  | kept t =>
    rw [chars, List.flatMap_map]
    exact List.flatMap_singleton' t
  | call name inside template args => simp [chars]

theorem single_chars {i j : Item} (h : i ∈ j.chars) : i.Single := by
  cases j with
  | kept t =>
    obtain ⟨c, -, rfl⟩ := List.mem_map.1 h
    exact ⟨c, rfl⟩
  | call name inside template args =>
    rw [List.mem_singleton.1 h]
    trivial

theorem call_mem_chars {name inside template : Text} {args : List Text} {j : Item} :
    call name inside template args ∈ j.chars ↔ call name inside template args = j := by
  cases j <;> simp [chars]

theorem Single.source_ne_nil {i : Item} (h : i.Single) : i.source ≠ [] := by
  cases i with
  | kept t =>
    obtain ⟨c, rfl⟩ := h
    exact List.cons_ne_nil c []
  | call name inside template args => exact callText_ne_nil name inside

end Item

theorem flatMap_source_chars (items : List Item) :
    (items.flatMap Item.chars).flatMap Item.source = items.flatMap Item.source := by
  rw [List.flatMap_assoc]
  exact List.flatMap_congr fun i _ => i.flatMap_source_chars

/-- A call among the characters was there before. -/
theorem exists_of_chars_eq_append {items before after : List Item} {name inside template : Text}
    {args : List Text}
    (h : items.flatMap Item.chars = before ++ .call name inside template args :: after) :
    ∃ left right, items = left ++ .call name inside template args :: right ∧
    left.flatMap Item.chars = before := by
  induction items generalizing before with
  | nil => simp at h
  | cons i items ih =>
    rw [List.flatMap_cons] at h
    rcases List.append_eq_append_iff.1 h with ⟨more, rfl, hrest⟩ | ⟨more, hchars, hrest⟩
    · obtain ⟨left, right, rfl, rfl⟩ := ih hrest
      exact ⟨i :: left, right, rfl, rfl⟩
    · cases more with
      | nil =>
        obtain ⟨left, right, rfl, hleft⟩ :=
          ih (show items.flatMap Item.chars = [] ++ .call name inside template args :: after from
            hrest.symm)
        refine ⟨i :: left, right, rfl, ?_⟩
        rw [List.flatMap_cons, hleft, hchars, List.append_nil, List.append_nil]
      | cons first more =>
        obtain ⟨rfl, -⟩ := List.cons.inj hrest
        have hmem : Item.call name inside template args ∈ i.chars := by simp [hchars]
        obtain rfl := Item.call_mem_chars.1 hmem
        obtain rfl : before = [] := by
          have := congrArg List.length hchars
          simp [Item.chars] at this
          exact List.eq_nil_of_length_eq_zero (by omega)
        exact ⟨[], items, rfl, rfl⟩

namespace Outermost

variable {table : Table} {t : Text} {items left left' : List Item} {item item' : Item}

theorem chars (h : Outermost table t items) : Outermost table t (items.flatMap Item.chars) where
  source := by rw [flatMap_source_chars, h.source]
  calls := by
    intro before name inside template args after heq
    obtain ⟨left, right, hsplit, rfl⟩ := exists_of_chars_eq_append heq
    rw [flatMap_source_chars]
    exact h.calls left name inside template args right hsplit
  covered := by
    intro before name inside after hsplit hcalled
    obtain ⟨left, name', inside', template, args, right, rfl, hleft, hright⟩ :=
      h.covered before name inside after hsplit hcalled
    refine ⟨left.flatMap Item.chars, name', inside', template, args, right.flatMap Item.chars,
      ?_, ?_, ?_⟩
    · rw [List.flatMap_append, List.flatMap_cons]
      rfl
    · rwa [flatMap_source_chars]
    · rwa [flatMap_source_chars]

/-- Where a cut has a call, any other has one too. -/
theorem exists_call {name inside after : Text} {rest : List Item}
    (h : Outermost table t (left ++ item :: rest))
    (hcalled : IsCall table (left.flatMap Item.source) name inside)
    (ht : t = left.flatMap Item.source ++ callText name inside ++ after) (hne : item.source ≠ []) :
    ∃ name' inside' template args, item = .call name' inside' template args := by
  obtain ⟨before, name', inside', template, args, right, heq, hbefore, hright⟩ :=
    h.covered _ name inside after ht hcalled
  rcases List.append_eq_append_iff.1 heq with ⟨more, rfl, hrest⟩ | ⟨more, rfl, hrest⟩
  · cases more with
    | nil => exact ⟨name', inside', template, args, (List.cons.inj hrest).1⟩
    | cons first more =>
      -- the call that covers this one would start later
      obtain ⟨rfl, -⟩ := List.cons.inj hrest
      have hlength := hbefore.length_le
      have := List.length_pos_of_ne_nil hne
      rw [List.flatMap_append, List.flatMap_cons, List.length_append, List.length_append] at hlength
      omega
  · cases more with
    | nil => exact ⟨name', inside', template, args, (List.cons.inj hrest).1.symm⟩
    | cons first more =>
      -- or it would have ended before
      obtain ⟨-, rfl⟩ := List.cons.inj hrest
      have hlength := hright.length_le
      have := List.length_pos_of_ne_nil (callText_ne_nil name inside)
      have hsource := congrArg List.length (h.source.trans ht)
      simp only [List.append_eq, List.flatMap_append, List.flatMap_cons,
        List.length_append] at hlength hsource
      omega

/-- Where two cuts have come to the same place, they go on alike. -/
theorem alike_append {rest rest' : List Item} (h : Outermost table t (left ++ rest))
    (h' : Outermost table t (left' ++ rest'))
    (hleft : left.flatMap Item.source = left'.flatMap Item.source) (hsingle : ∀ i ∈ rest, i.Single)
    (hsingle' : ∀ i ∈ rest', i.Single) : List.Forall₂ Item.Alike rest rest' := by
  have hsource : rest.flatMap Item.source = rest'.flatMap Item.source := by
    have := h.source.trans h'.source.symm
    rwa [List.flatMap_append, List.flatMap_append, hleft, List.append_cancel_left_eq] at this
  induction rest generalizing left left' rest' with
  | nil =>
    cases rest' with
    | nil => exact .nil
    | cons item' rest' =>
      have hnil := (List.append_eq_nil_iff.1 hsource.symm).1
      exact absurd hnil (hsingle' item' List.mem_cons_self).source_ne_nil
  | cons item rest ih =>
    cases rest' with
    | nil =>
      have hnil := (List.append_eq_nil_iff.1 hsource).1
      exact absurd hnil (hsingle item List.mem_cons_self).source_ne_nil
    | cons item' rest' =>
      rw [List.forall_mem_cons] at hsingle hsingle'
      have hsplit : t = left.flatMap Item.source ++ (item.source ++ rest.flatMap Item.source) := by
        rw [← h.source, List.flatMap_append, List.flatMap_cons]
      -- stretches alike are followed by stretches alike
      have next (hitem : item.Alike item') (heq : item.source = item'.source) :
          List.Forall₂ Item.Alike (item :: rest) (item' :: rest') := by
        rw [List.append_cons] at h h'
        refine .cons hitem (ih h h' ?_ hsingle.2 hsingle'.2 ?_)
        · rw [List.flatMap_append, List.flatMap_append, hleft, List.flatMap_singleton,
            List.flatMap_singleton, heq]
        · rwa [List.flatMap_cons, List.flatMap_cons, heq, List.append_cancel_left_eq] at hsource
      rw [List.flatMap_cons, List.flatMap_cons] at hsource
      cases item with
      | kept u =>
        obtain ⟨c, rfl⟩ := hsingle.1
        cases item' with
        | kept u' =>
          obtain ⟨c', rfl⟩ := hsingle'.1
          obtain rfl := (List.cons.inj hsource).1
          exact next (.kept [c]) rfl
        | call name inside template args =>
          have hcalled := h'.calls left' name inside template args rest' rfl
          rw [← hleft] at hcalled
          rw [hsource, ← List.append_assoc] at hsplit
          obtain ⟨_, _, _, _, heq⟩ := h.exists_call hcalled hsplit (List.cons_ne_nil c [])
          cases heq
      | call name inside template args =>
        have hcalled := h.calls left name inside template args rest rfl
        cases item' with
        | kept u' =>
          rw [hleft] at hcalled hsplit
          rw [← List.append_assoc] at hsplit
          obtain ⟨_, _, _, _, heq⟩ := h'.exists_call hcalled hsplit hsingle'.1.source_ne_nil
          cases heq
        | call name' inside' template' args' =>
          have hcalled' := h'.calls left' name' inside' template' args' rest' rfl
          rw [← hleft] at hcalled'
          obtain ⟨rfl, rfl, -⟩ := hcalled.unique hcalled' hsource
          exact next (.call ..) rfl

/-- There is one way to cut a text into its outermost calls and the characters between them. -/
theorem alike {items' : List Item} (h : Outermost table t items) (h' : Outermost table t items')
    (hsingle : ∀ i ∈ items, i.Single) (hsingle' : ∀ i ∈ items', i.Single) :
    List.Forall₂ Item.Alike items items' := by
  rw [← List.nil_append items] at h
  rw [← List.nil_append items'] at h'
  exact h.alike_append h' rfl hsingle hsingle'

end Outermost
end ScriptMinifier.Substitution
