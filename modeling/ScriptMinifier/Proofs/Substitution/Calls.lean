import ScriptMinifier.Proofs.Substitution.CallSites
import ScriptMinifier.Proofs.Substitution.Sealing

/-! What inlining writes.

Each outermost call of a text is written as the template of its name filled with its arguments,
those inlined in turn, or as it stands if the template asks for more arguments than it has; all else
is copied (`Inlined`). The templates are those that the state holds in the end, for a template that
has been looked up stays (`Interns`). -/
namespace ScriptMinifier.Substitution

open Text (arguments isWordChar mark splitClose?)

/-! ### What is written -/

/-- Whether the argument of a piece is among so many. -/
def Part.isGiven (count : Nat) : Part → Bool
  | char _ => true
  | argument k => k < count

/-- Whether every argument that a template asks for is among so many. -/
def inlinable (template : Text) (count : Nat) : Bool := (parts template).all (Part.isGiven count)

/-- The text of a piece. -/
def Part.filled (args : List Text) : Part → Text
  | char c => [c]
  | argument k => args.getD k []

/-- A template with its arguments put in. -/
def fill (template : Text) (args : List Text) : Text := (parts template).flatMap (Part.filled args)

/-- A replacement after what has been written. An assignment takes the place of the word `call`. -/
def putAfter (out replacement : Text) : Text :=
  if "set ".toList <+: replacement ∧ "call ".toList <:+
    out then out.take (out.length - 5) ++ replacement
  else out ++ replacement

/-- What has been written, with a stretch after it. -/
def Item.write (out : Text) : Item → Text
  | kept t => out ++ t
  | call name inside template args =>
    if inlinable template (arguments inside).length then putAfter out (fill template args)
    else out ++ callText name inside

/-- A text and the text with its calls inlined: each outermost call has the template of its name,
and the arguments that it lists, inlined in turn. -/
inductive Inlined (table : Table) (templates : Text.Dictionary Text) : Text → Text → Prop
  | intro {t : Text} {items : List Item} (outermost : Outermost table t items)
      (found : ∀ name inside template args, Item.call name inside template args ∈ items →
        templates.find? name = some template)
      (inlined : ∀ name inside template args, Item.call name inside template args ∈ items →
        List.Forall₂ (Inlined table templates) (arguments inside) args) :
      Inlined table templates t (items.foldl Item.write [])

/-- What inlining does to its state: what has been looked up stays, literals come to those there
are, and each new replacement is the entry of its name, with the literals lifted as it was first
looked up, and squeezed. -/
structure Interns (table : Table) (s s' : Inlining) : Prop where
  kept : ∀ name template, s.templates.find? name = some template →
    s'.templates.find? name = some template
  literals : s.literals.texts <+: s'.literals.texts
  made : ∀ name template, s'.templates.find? name = some template →
    s.templates.find? name = some template ∨
    ∃ raw ls, table.find? name = some raw ∧
      template = Layout.squeezeBlock (Literals.lift ls raw).1 ∧
      s.literals.texts <+: ls.texts ∧ (Literals.lift ls raw).2.texts <+: s'.literals.texts

/-! ### Writing -/

theorem mapM_text?_eq (ps : List Part) (args : List Text) :
    (ps.mapM (Part.text? args)).map List.flatten =
      if ps.all (Part.isGiven args.length) then some (ps.flatMap (Part.filled args)) else none := by
  induction ps with
  | nil => rfl
  | cons p rest ih =>
    have hcons : ((p :: rest).mapM (Part.text? args)).map List.flatten =
        (p.text? args).bind fun t =>
          ((rest.mapM (Part.text? args)).map List.flatten).map (t ++ ·) := by
      rw [List.mapM_cons]
      cases p.text? args with
      | none => rfl
      | some t => cases rest.mapM (Part.text? args) <;> rfl
    rw [hcons, ih]
    cases p with
    | char c =>
      rw [List.all_cons, Part.isGiven, Bool.true_and]
      by_cases hall : rest.all (Part.isGiven args.length) = true <;>
        simp [hall, Part.text?, Part.filled]
    | argument k =>
      rw [List.all_cons, Part.isGiven]
      by_cases hk : k < args.length
      · by_cases hall : rest.all (Part.isGiven args.length) = true <;>
          simp [hall, hk, Part.text?, Part.filled]
      · simp [hk, Part.text?]

/-- A template is filled if all its arguments are given. -/
theorem expand?_eq (template : Text) (args : List Text) :
    expand? template args = if inlinable template args.length then some
    (fill template args) else none :=
  mapM_text?_eq (parts template) args

theorem reverse_beforeReplacement (replacement out : Text) :
    (replacement.reverse ++ beforeReplacement replacement out).reverse =
      putAfter out.reverse replacement := by
  have hcall : "call ".toList.reverse <+: out ↔ "call ".toList <:+ out.reverse := by
    rw [← List.reverse_prefix, List.reverse_reverse]
  rw [List.reverse_append, List.reverse_reverse, beforeReplacement, putAfter]
  simp only [Bool.and_eq_true, List.isPrefixOf_iff_prefix, hcall]
  split
  · rw [List.length_reverse, ← List.reverse_drop]
  · rfl

/-! ### States -/

section States

variable {table : Table} {s s' s'' : Inlining}

/-- Only names of the table have been looked up. -/
def Known (table : Table) (s : Inlining) : Prop :=
  ∀ name template, s.templates.find? name = some template → table.find? name ≠ none

theorem prefix_lift (ls : Literals) (raw : Text) : ls.texts <+: (ls.lift raw).2.texts := by
  fun_induction Literals.lift ls raw with
  | case1 ls => exact List.prefix_refl _
  | case2 ls c rest hc hclose => exact List.prefix_refl _
  | case3 ls c rest hc inside after hclose held ls' hintern out ls'' hout ih =>
    obtain rfl : (⟨ls.texts ++ [c :: inside]⟩ : Literals) = ls' := (Prod.mk.inj hintern).2
    rw [hout] at ih
    exact (List.prefix_append _ _).trans ih
  | case4 ls c rest hc out ls' hout ih =>
    rw [hout] at ih
    exact ih

namespace Interns

theorem refl (table : Table) (s : Inlining) : Interns table s s where
  kept _ _ h := h
  literals := List.prefix_refl _
  made _ _ h := .inl h

theorem trans (h : Interns table s s') (h' : Interns table s' s'') : Interns table s s'' where
  kept name template hfind := h'.kept name template (h.kept name template hfind)
  literals := h.literals.trans h'.literals
  made := by
    intro name template hfind
    rcases h'.made name template hfind with hfind | ⟨raw, ls, hraw, hmade, hbefore, hafter⟩
    · refine (h.made name template hfind).imp_right ?_
      rintro ⟨raw, ls, hraw, hmade, hbefore, hafter⟩
      exact ⟨raw, ls, hraw, hmade, hbefore, hafter.trans h'.literals⟩
    · exact .inr ⟨raw, ls, hraw, hmade, h.literals.trans hbefore, hafter⟩

theorem tell (h : Interns table s s') (message : Message) : Interns table s (s'.tell message) :=
  ⟨h.kept, h.literals, h.made⟩

theorem known (h : Interns table s s') (hs : Known table s) : Known table s' := by
  intro name template hfind
  rcases h.made name template hfind with hold | ⟨raw, -, hraw, -⟩
  · exact hs name template hold
  · rw [hraw]
    exact Option.some_ne_none raw

theorem lookup? {name template : Text} (h : s.lookup? table name = some (template, s')) :
    Interns table s s' ∧ s'.templates.find? name = some template := by
  rcases lookup?_cases h with ⟨hfind, rfl⟩ | ⟨raw, hnew, hraw, htemplate, rfl⟩
  · exact ⟨.refl table _, hfind⟩
  refine ⟨⟨?_, prefix_lift _ _, ?_⟩, ?_⟩
  · intro other found hfind
    rw [Text.Dictionary.find?_insert, if_neg fun heq => ?_]
    · exact hfind
    · rw [← heq, hnew] at hfind
      cases hfind
  · intro other found hfind
    rw [Text.Dictionary.find?_insert] at hfind
    split at hfind
    · rename_i heq
      obtain rfl := Option.some.inj hfind
      exact .inr ⟨raw, _, heq ▸ hraw, htemplate, List.prefix_refl _, List.prefix_refl _⟩
    · exact .inl hfind
  · rw [Text.Dictionary.find?_insert, if_pos rfl]

end Interns

theorem lookup?_eq_none {name : Text} (h : s.lookup? table name = none) :
    table.find? name = none := by
  rw [Inlining.lookup?] at h
  split at h
  · cases h
  · simpa using h

theorem find?_of_lookup? {name template : Text} (hs : Known table s)
    (h : s.lookup? table name = some (template, s')) :
    table.find? name ≠ none := by
  obtain ⟨hinterns, hfind⟩ := Interns.lookup? h
  exact hinterns.known hs name template hfind

end States

/-! ### Runs -/

/-- Calls that have the templates of their names, and their arguments inlined. -/
structure Resolved (table : Table) (templates : Text.Dictionary Text) (items : List Item) :
    Prop where
  found : ∀ name inside template args, Item.call name inside template args ∈ items →
    templates.find? name = some template
  inlined : ∀ name inside template args, Item.call name inside template args ∈ items →
    List.Forall₂ (Inlined table templates) (arguments inside) args

/-- What inlining the calls of a text does, from what has been written. Templates that are looked up
later change nothing. -/
def CallsFollow (table : Table) (s : Inlining) (out t : Text) : Prop :=
  Known table s → Interns table s (inlineFrom table s out t).2 ∧
    ∀ templates,
        (∀ name template, (inlineFrom table s out t).2.templates.find? name = some template →
        templates.find? name = some template) →
      ∃ items, Outermost table t items ∧ Resolved table templates items ∧
        (inlineFrom table s out t).1 = items.foldl Item.write out.reverse

/-- What inlining the calls of several texts does. -/
def EachFollows (table : Table) (s : Inlining) (args : List Text) : Prop :=
  Known table s → Interns table s (inlineEach table s args).2 ∧
    ∀ templates,
        (∀ name template, (inlineEach table s args).2.templates.find? name = some template →
        templates.find? name = some template) →
      List.Forall₂ (Inlined table templates) args (inlineEach table s args).1

section Runs

variable {table : Table} {s s' : Inlining} {out out' t t' u : Text} {item : Item}

/-- One more stretch is dealt with before the rest of a text. -/
theorem CallsFollow.step (h : CallsFollow table s' out' t')
    (hstate : Known table s → Interns table s s')
    (hresolved : Known table s → ∀ templates,
      (∀ name template, s'.templates.find? name = some template →
      templates.find? name = some template) → Resolved table templates [item])
    (hcut : Known table s → ∀ items, Outermost table t' items → Outermost table t (item :: items))
    (hwrite : item.write out.reverse = out'.reverse)
    (heq : inlineFrom table s out t = inlineFrom table s' out' t') : CallsFollow table s out t := by
  intro hs
  obtain ⟨hinterns, hitems⟩ := h ((hstate hs).known hs)
  rw [heq]
  refine ⟨(hstate hs).trans hinterns, fun templates hlater => ?_⟩
  obtain ⟨items, hcuts, hrest, hwritten⟩ := hitems templates hlater
  have hfirst := hresolved hs templates fun name template hfind => hlater name template
    (hinterns.kept name template hfind)
  refine ⟨item :: items, hcut hs items hcuts, ⟨?_, ?_⟩, ?_⟩
  · intro name inside template args hmem
    rcases List.mem_cons.1 hmem with rfl | hmem
    · exact hfirst.found name inside template args List.mem_cons_self
    · exact hrest.found name inside template args hmem
  · intro name inside template args hmem
    rcases List.mem_cons.1 hmem with rfl | hmem
    · exact hfirst.inlined name inside template args List.mem_cons_self
    · exact hrest.inlined name inside template args hmem
  · rw [hwritten, List.foldl_cons, hwrite]

/-- A stretch is copied. -/
theorem CallsFollow.copy (h : CallsFollow table s' (u.reverse ++ out) t')
    (hstate : Known table s → Interns table s s')
    (hcut : ∀ items, Outermost table t' items → Outermost table t (.kept u :: items))
    (heq : inlineFrom table s out t = inlineFrom table s' (u.reverse ++ out) t') :
    CallsFollow table s out t := by
  refine h.step hstate (fun _ _ _ => ⟨?_, ?_⟩) (fun _ => hcut) ?_ heq
  · intro name inside template args hmem
    cases List.mem_singleton.1 hmem
  · intro name inside template args hmem
    cases List.mem_singleton.1 hmem
  · rw [Item.write, List.reverse_append, List.reverse_reverse]

theorem length_inlineEach (table : Table) (s : Inlining) (args : List Text) :
    (inlineEach table s args).1.length = args.length := by
  induction args generalizing s with
  | nil => rw [inlineEach]
  | cons arg rest ih => rw [inlineEach, List.length_cons, ih, List.length_cons]

/-- A closed call of a name in the table is written, and its end is gone on from. -/
theorem CallsFollow.closed {c : Char} {rest inner template inside tail : Text} {s₁ s₂ : Inlining}
    {args : List Text}
    {message : Message} (hword : isWordChar c = true)
    (hcall : rest.dropWhile isWordChar = '(' :: inner)
    (hlookup : s.lookup? table (c :: rest.takeWhile isWordChar) = some (template, s₁))
    (hclose : splitClose? inner = some (inside, tail))
    (hargs : EachFollows table s₁ (arguments inside))
    (heach : inlineEach table s₁ (arguments inside) = (args, s₂))
    (h : CallsFollow table (s₂.tell message) out' tail)
    (hwrite : Item.write out.reverse (.call (c :: rest.takeWhile isWordChar) inside template args) =
      out'.reverse)
    (heq : inlineFrom table s out (c :: rest) = inlineFrom table (s₂.tell message) out' tail) :
    CallsFollow table s out (c :: rest) := by
  obtain ⟨hsplit, hrun⟩ := Text.exists_run hword rest
  obtain ⟨hfirst, hfound⟩ := Interns.lookup? hlookup
  obtain ⟨hnested, rfl⟩ := Text.splitClose?_eq_some.1 hclose
  have hstate : Known table s → Interns table s₁ s₂ := fun hs => by
    simpa [heach] using (hargs (hfirst.known hs)).1
  refine h.step (fun hs => (hfirst.trans (hstate hs)).tell message)
    (fun hs templates hlater => ⟨?_, ?_⟩) ?_ hwrite heq
  · intro name' inside' template' args' hmem
    obtain ⟨rfl, rfl, rfl, rfl⟩ := Item.call.inj (List.mem_singleton.1 hmem)
    exact hlater _ _ ((hstate hs).kept _ _ hfound)
  · intro name' inside' template' args' hmem
    obtain ⟨rfl, rfl, rfl, rfl⟩ := Item.call.inj (List.mem_singleton.1 hmem)
    have hinlined := (hargs (hfirst.known hs)).2 templates
    rw [heach] at hinlined
    exact hinlined hlater
  · intro hs items hcuts
    have hcalled : IsCall table [] (c :: rest.takeWhile isWordChar) inside :=
      ⟨rfl, nofun, List.cons_ne_nil _ _, hrun, find?_of_lookup? hs hlookup, hnested⟩
    rw [hsplit, hcall, ← callText_append]
    exact hcuts.call hcalled template args

theorem EachFollows.cons {arg : Text} {rest : List Text} (hfirst : CallsFollow table s [] arg)
    (hrest : EachFollows table (inlineFrom table s [] arg).2 rest) :
    EachFollows table s (arg :: rest) := by
  intro hs
  obtain ⟨hinterns, hitems⟩ := hfirst hs
  obtain ⟨hinterns', hmore⟩ := hrest (hinterns.known hs)
  rw [inlineEach]
  refine ⟨hinterns.trans hinterns', fun templates hlater => .cons ?_ (hmore templates hlater)⟩
  obtain ⟨items, hcuts, hresolved, hwritten⟩ :=
    hitems templates fun name template hfind => hlater name template
      (hinterns'.kept name template hfind)
  rw [hwritten]
  exact .intro hcuts hresolved.found hresolved.inlined

/-- What each step of inlining does, by what the text starts with. -/
theorem calls_follow (table : Table) :
    (∀ s out t, CallsFollow table s out t) ∧ ∀ s args, EachFollows table s args := by
  refine inlineFrom.mutual_induct table (CallsFollow table) (EachFollows table)
    ?done ?literal ?unknown ?unclosed ?replaced ?kept ?word ?other ?none ?each
  case done =>
    intro s out _
    rw [inlineFrom]
    have hnone : ∀ item : Item, item ∉ [] := fun _ => List.not_mem_nil
    exact ⟨.refl table s, fun _ _ =>
      ⟨[], .nil, ⟨fun _ _ _ _ h => absurd h (hnone _), fun _ _ _ _ h => absurd h (hnone _)⟩, rfl⟩⟩
  case literal =>
    intro s out rest ih
    have heq : inlineFrom table s out (mark :: rest) =
        inlineFrom table s ((mark :: Text.throughMark rest).reverse ++ out)
          (Text.afterMark rest) := by
      rw [inlineFrom, if_pos rfl, List.reverse_cons, List.append_assoc]
      rfl
    refine CallsFollow.copy (u := mark :: Text.throughMark rest) ?_ (fun _ => .refl table s)
      (fun _ h => h.literal) heq
    rw [List.reverse_cons, List.append_assoc]
    exact ih
  case unknown =>
    intro s out c rest hmark hword name inner hcall hlookup ih
    refine ih.copy (fun _ => .refl table s) (fun items hcuts => ?_)
      (inlineFrom_unknown hmark hword hcall hlookup)
    obtain ⟨hsplit, hrun⟩ := Text.exists_run hword rest
    rw [hsplit, hcall]
    exact hcuts.word hrun (Text.startsNoWord_of_isOtherChar (by decide) inner) fun _ _ _ _ =>
      lookup?_eq_none hlookup
  case unclosed =>
    intro s out c rest hmark hword name inner hcall template s₁ hlookup hclose ih
    refine ih.copy (fun _ => (Interns.lookup? hlookup).1) (fun items hcuts => ?_)
      (inlineFrom_unclosed hmark hword hcall hlookup hclose)
    obtain ⟨hsplit, hrun⟩ := Text.exists_run hword rest
    rw [hsplit, hcall]
    refine hcuts.word hrun (Text.startsNoWord_of_isOtherChar (by decide) inner)
      fun inside after hafter hnested => ?_
    rw [(List.cons.inj hafter).2, splitClose?, List.append_eq,
      Text.closeFrom_zero_nested hnested] at hclose
    cases hclose
  case replaced =>
    intro s out c rest hmark hword name inner hcall template s₁ hlookup inside tail hclose args s₂
      heach replacement
      hexpand told ihargs ih
    have hlength : args.length = (arguments inside).length := by
      rw [← length_inlineEach table s₁ (arguments inside), heach]
    refine CallsFollow.closed hword hcall hlookup hclose ihargs heach ih ?_ ?_
    · rw [expand?_eq, hlength] at hexpand
      split at hexpand
      · rename_i hall
        rw [Item.write, if_pos hall, Option.some.inj hexpand, ← reverse_beforeReplacement]
      · cases hexpand
    · rw [inlineFrom_closed hmark hword hcall hlookup hclose]
      simp only [heach, hexpand]
      rfl
  case kept =>
    intro s out c rest hmark hword name inner hcall template s₁ hlookup inside tail hclose args s₂
      heach hexpand told
      ihargs ih
    have hlength : args.length = (arguments inside).length := by
      rw [← length_inlineEach table s₁ (arguments inside), heach]
    refine CallsFollow.closed hword hcall hlookup hclose ihargs heach ih ?_ ?_
    · rw [expand?_eq, hlength] at hexpand
      split at hexpand
      · cases hexpand
      · rename_i hall
        rw [Item.write, if_neg hall, List.reverse_append, List.reverse_reverse]
        rfl
    · rw [inlineFrom_closed hmark hword hcall hlookup hclose]
      simp only [heach, hexpand]
      rfl
  case word =>
    intro s out c rest hmark hword name hplain ih
    refine ih.copy (fun _ => .refl table s) (fun items hcuts => ?_)
      (inlineFrom_word hmark hword hplain)
    obtain ⟨hsplit, hrun⟩ := Text.exists_run hword rest
    rw [hsplit]
    refine hcuts.word hrun (Text.startsNoWord_dropWhile rest) fun inside after hafter _ => ?_
    exact absurd hafter (hplain _)
  case other =>
    intro s out c rest hmark hword ih
    have heq :
        inlineFrom table s out (c :: rest) = inlineFrom table s ([c].reverse ++ out) rest := by
      rw [inlineFrom, if_neg hmark, if_neg hword]
      rfl
    exact CallsFollow.copy (u := [c]) ih (fun _ => .refl table s)
      (fun _ h => h.other hmark (by simpa using hword)) heq
  case none =>
    intro s _
    rw [inlineEach]
    exact ⟨.refl table s, fun _ _ => .nil⟩
  case each =>
    intro s arg rest first s' hfirst more s'' hmore ih ih'
    refine EachFollows.cons ih ?_
    rwa [hfirst]

end Runs

/-! ### One way to write -/

section Unique

variable {table : Table} {templates : Text.Dictionary Text} {t : Text} {items items' : List Item}

theorem foldl_write_chars (items : List Item) (out : Text) :
    (items.flatMap Item.chars).foldl Item.write out = items.foldl Item.write out := by
  have hkept : ∀ (t out : Text), (t.map fun c => Item.kept [c]).foldl Item.write out =
      out ++ t := by
    intro t
    induction t with
    | nil => exact fun out => (List.append_nil out).symm
    | cons c rest ih =>
      intro out
      rw [List.map_cons, List.foldl_cons, ih, Item.write, List.append_assoc]
      rfl
  induction items generalizing out with
  | nil => rfl
  | cons item rest ih =>
    rw [List.flatMap_cons, List.foldl_append, ih, List.foldl_cons]
    cases item with
    | kept t => rw [Item.chars, hkept, Item.write]
    | call name inside template args => rfl

theorem Resolved.chars (h : Resolved table templates items) :
    Resolved table templates (items.flatMap Item.chars) := by
  have hmem :
      ∀ name inside template args, Item.call name inside template args ∈ items.flatMap Item.chars →
      Item.call name inside template args ∈ items := by
    intro name inside template args hmem
    obtain ⟨item, hitem, hchars⟩ := List.mem_flatMap.1 hmem
    rwa [Item.call_mem_chars.1 hchars]
  exact ⟨fun name inside template args h' => h.found _ _ _ _ (hmem _ _ _ _ h'),
    fun name inside template args h' => h.inlined _ _ _ _ (hmem _ _ _ _ h')⟩

theorem Resolved.tail {item : Item} (h : Resolved table templates (item :: items)) :
    Resolved table templates items :=
  ⟨fun _ _ _ _ hmem => h.found _ _ _ _ (List.mem_cons_of_mem item hmem),
    fun _ _ _ _ hmem => h.inlined _ _ _ _ (List.mem_cons_of_mem item hmem)⟩

theorem length_le_span {arg : Text} {args : List Text} (h : arg ∈ args) :
    arg.length + 1 ≤ Text.span args := by
  induction args with
  | nil => cases h
  | cons first rest ih =>
    rw [Text.span]
    rcases List.mem_cons.1 h with rfl | h
    · omega
    · have := ih h
      omega

/-- An argument of a call is shorter than the text. -/
theorem length_lt_of_mem_arguments (hcuts : Outermost table t items)
    {name inside template arg : Text} {args : List Text}
    (hcall : Item.call name inside template args ∈ items) (harg : arg ∈ arguments inside) :
    arg.length < t.length := by
  have hitem : (callText name inside).length ≤ t.length := by
    rw [← hcuts.source]
    exact (List.sublist_flatten_of_mem (List.mem_map_of_mem (f := Item.source) hcall)).length_le
  have hspan := Text.span_arguments_le inside
  have hle := length_le_span harg
  simp only [callText, List.length_append, List.length_cons] at hitem
  omega

/-- Where calls have the same arguments, stretches alike are written alike. -/
theorem foldl_write_alike (h : List.Forall₂ Item.Alike items items')
    (hitems : Resolved table templates items) (hitems' : Resolved table templates items')
    (hargs : ∀ name inside template args, Item.call name inside template args ∈ items →
      ∀ arg ∈ arguments inside,
      ∀ r r', Inlined table templates arg r → Inlined table templates arg r' → r = r')
    (out : Text) :
    items.foldl Item.write out = items'.foldl Item.write out := by
  induction h generalizing out with
  | nil => rfl
  | @cons item item' rest rest' halike _ ih =>
    have hrest := ih hitems.tail hitems'.tail fun name inside template args hmem =>
      hargs name inside template args (List.mem_cons_of_mem item hmem)
    rw [List.foldl_cons, List.foldl_cons, hrest]
    cases halike with
    | kept t => rfl
    | call name inside template template' args args' =>
      have htemplate : template = template' := Option.some.inj
        ((hitems.found _ _ _ _ List.mem_cons_self).symm.trans
          (hitems'.found _ _ _ _ List.mem_cons_self))
      have hsame : args = args' := by
        have hfirst := hitems.inlined _ _ _ _ List.mem_cons_self
        have hsecond := hitems'.inlined _ _ _ _ List.mem_cons_self
        have hunique := hargs name inside template args List.mem_cons_self
        clear hitems hitems' hargs hrest ih htemplate
        generalize arguments inside = texts at hfirst hsecond hunique
        induction hfirst generalizing args' with
        | nil => cases hsecond; rfl
        | cons hr _ ih =>
          cases hsecond with
          | cons hr' hmore =>
            rw [List.forall_mem_cons] at hunique
            rw [hunique.1 _ _ hr hr', ih _ hmore hunique.2]
      rw [htemplate, hsame]

/-- A text is inlined in one way. The induction is on its length, which its arguments are shorter
than. -/
theorem Inlined.unique {t r r' : Text} (h : Inlined table templates t r)
    (h' : Inlined table templates t r') : r = r' := by
  match h, h' with
  | @Inlined.intro _ _ _ items hcuts hfound hinlined,
      @Inlined.intro _ _ _ items' hcuts' hfound' hinlined' =>
    have hitems : Resolved table templates (items.flatMap Item.chars) :=
      Resolved.chars ⟨hfound, hinlined⟩
    have hitems' : Resolved table templates (items'.flatMap Item.chars) :=
      Resolved.chars ⟨hfound', hinlined'⟩
    have hsingle : ∀ items : List Item, ∀ i ∈ items.flatMap Item.chars, i.Single := by
      intro items i hi
      obtain ⟨j, -, hj⟩ := List.mem_flatMap.1 hi
      exact Item.single_chars hj
    have halike := hcuts.chars.alike hcuts'.chars (hsingle items) (hsingle items')
    rw [← foldl_write_chars items, ← foldl_write_chars items']
    refine foldl_write_alike halike hitems hitems'
      (fun name inside template args hmem arg harg r r' hr hr' => ?_) []
    have hlt := length_lt_of_mem_arguments hcuts.chars hmem harg
    exact Inlined.unique hr hr'
termination_by t.length

end Unique

/-- **Inlining writes its text with every outermost call replaced** that has the arguments which its
template asks for, and all else as it stands, with the replacements that the state holds in the end;
each of those is an entry of the table with its literals among those of the state. -/
theorem inlineCalls_follows (table : Table) (ls : Literals) (t : Text) :
    (∀ r, Inlined table (inlineCalls table { literals := ls } t).2.templates t r ↔
        r = (inlineCalls table { literals := ls } t).1) ∧
      Interns table { literals := ls } (inlineCalls table { literals := ls } t).2 := by
  obtain ⟨hinterns, hitems⟩ := (calls_follow table).1 { literals := ls } [] t nofun
  obtain ⟨items, hcuts, hresolved, hwritten⟩ := hitems _ fun _ _ hfind => hfind
  have hinlined : Inlined table (inlineCalls table { literals := ls } t).2.templates t
      (inlineCalls table { literals := ls } t).1 := by
    rw [inlineCalls, hwritten]
    exact .intro hcuts hresolved.found hresolved.inlined
  exact ⟨fun r => ⟨fun h => h.unique hinlined, fun h => h ▸ hinlined⟩, hinterns⟩

/-- A call in an argument is inlined first, one in a call that is left as it stands is not. -/
example :
    let table : Table := .ofPairs
      [("Set".toList, "set \\0=\\1".toList), ("Neg".toList, "(-\\0)".toList)]
    (inlineCalls table { literals := {} } "call Set(x,Neg(a))\ncall Set(Neg(b))".toList).1 =
      "set x=(-a)\ncall Set(Neg(b))".toList := by
  decide +kernel

end ScriptMinifier.Substitution
