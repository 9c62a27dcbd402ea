import ScriptMinifier.Proofs.Text.Replacing
import ScriptMinifier.Usage.Idiom

/-! Calls whose second argument is a literal.

A variable event takes the first literal after its name. Where the second argument of such a
call is a literal and the first holds none, it is that one (`LiteralCall.mem_ids`). Replacing
words leaves the call and the place of its literal as they are (`LiteralCall.replaceWords`). -/
namespace ScriptMinifier

open Literal (placeholder indexLimit)
open Text (mark Segment isWordChar isOtherChar StartsNoWord splitClose? argumentsFrom)

/-! ### The call -/

/-- On a line stands a call of the word `callee`, whose first argument is `first` and whose
second argument is the literal of a number. -/
inductive LiteralCall (callee first : Text) (n : Nat) : Text → Prop
  | intro {before inside after : Text} {rest : List Text}
      (apart : ∀ c ∈ before.getLast?, isWordChar c = false)
      (closes : splitClose? (inside ++ ')' :: after) = some (inside, after))
      (arguments : Text.arguments inside = first :: placeholder n :: rest) :
      LiteralCall callee first n (before ++ (callee ++ '(' :: (inside ++ ')' :: after)))

namespace LiteralCall

variable {callee first line : Text} {n : Nat}

theorem argumentsFrom_eq {inside : Text} {rest : List Text}
    (h : Text.arguments inside = first :: rest) :
    argumentsFrom 0 false inside = first :: rest := by
  rw [Text.arguments] at h
  split at h
  · cases h
  · exact h

theorem ne_nil (h : LiteralCall callee first n line) : line ≠ [] := by
  obtain ⟨-, -, -⟩ := h
  simp

/-- The literal stands between the first argument and the next comma or the end of the list. -/
theorem exists_text (h : LiteralCall callee first n line) :
    ∃ before c tail, (c = ',' ∨ c = ')') ∧
      line = before ++ (callee ++ '(' :: (first ++ ',' :: (placeholder n ++ c :: tail))) ∧
      ∀ c ∈ before.getLast?, isWordChar c = false := by
  obtain @⟨before, inside, after, rest, apart, -, arguments⟩ := h
  have hjoined := Substitution.joined_argumentsFrom 0 false inside
  rw [argumentsFrom_eq arguments, Text.joined_cons_cons] at hjoined
  rw [← hjoined]
  cases rest with
  | nil => exact ⟨before, ')', after, .inr rfl, by simp [Text.joined, List.intercalate], apart⟩
  | cons second more =>
    refine ⟨before, ',', Text.joined ',' (second :: more) ++ ')' :: after, .inl rfl, ?_, apart⟩
    rw [Text.joined_cons_cons]
    simp

end LiteralCall

/-! ### The literal that an event takes -/

namespace Usage

theorem Idiom.mem_idsIn_append {idiom : Idiom} {n : Nat} {segments : List Segment}
    (h : n ∈ idiom.idsIn segments)
    (before : List Segment) : n ∈ idiom.idsIn (before ++ segments) := by
  induction before with
  | nil => exact h
  | cons g rest ih =>
    rw [List.cons_append, Idiom.idsIn]
    exact List.mem_append_right _ ih

/-- Up to a literal on the same line there is no other. -/
theorem firstOnLine_append {t : Text} (hmark : mark ∉ t) (hline : '\n' ∉ t) {n : Nat}
    (hn : n < indexLimit)
    (after : List Segment) :
    firstOnLine (Text.segments t ++ .placeholder (placeholder n) :: after) = [n] := by
  fun_induction Text.segments t with
  | case1 =>
    rw [List.nil_append, firstOnLine, Literal.placeholderId?_placeholder hn]
    rfl
  | case2 rest ih => exact absurd List.mem_cons_self hmark
  | case3 c rest _ hw ih =>
    obtain ⟨hsplit, -⟩ := Text.exists_run hw rest
    rw [hsplit, List.mem_append, not_or] at hmark hline
    rw [List.cons_append, firstOnLine]
    exact ih hmark.2 hline.2
  | case4 c rest hc hw ih =>
    have ho : isOtherChar c = true := by simp [isOtherChar, hw, hc]
    obtain ⟨hsplit, -⟩ := Text.exists_run ho rest
    rw [hsplit, List.mem_append, not_or] at hmark hline
    rw [List.cons_append, firstOnLine, if_neg fun h => hline.1 (List.contains_iff_mem.1 h)]
    exact ih hmark.2 hline.2

/-- The first literal after the name and an opening parenthesis, on the same line. -/
theorem mem_ids_of_segments {m n : Nat} {before opened : Text} (hbefore : Sealed m before)
    (hapart : ∀ c ∈ before.getLast?, isWordChar c = false) (hmark : mark ∉ opened)
    (hline : '\n' ∉ opened) (hn : n < indexLimit) (after : Text) :
    n ∈ Idiom.variableEvent.ids
      (before ++ (Idiom.variableEvent.callee ++ '(' :: (opened ++ (placeholder n ++ after)))) := by
  have hwords : ∀ c ∈ Idiom.variableEvent.callee, isWordChar c = true := by decide
  have hmark' : mark ∉ '(' :: opened := fun hmem => (List.mem_cons.1 hmem).elim (by decide) hmark
  have hline' : '\n' ∉ '(' :: opened := fun hmem => (List.mem_cons.1 hmem).elim (by decide) hline
  have hhead : ∀ d ∈ (placeholder n ++ after).head?, d = mark := by
    intro d hd
    rw [Literal.placeholder_append] at hd
    exact (Option.some.inj hd).symm
  have hlist : Text.segments ('(' :: (opened ++ (placeholder n ++ after))) =
      Text.segments ('(' :: opened) ++ .placeholder (placeholder n) :: Text.segments after := by
    rw [← List.cons_append, (Sealed.of_not_mem (n := 0) hmark').segments_append,
      Literal.segments_placeholder]
    · intro c _ _ d rest hd
      rw [hhead d (by rw [hd]; rfl)]
      decide
    · intro c _ _ d hd
      rw [hhead d hd]
      decide
  have hopens : StartsNoWord ('(' :: (opened ++ (placeholder n ++ after))) :=
    Text.startsNoWord_of_isOtherChar (by decide) _
  have htaken := firstOnLine_append hmark' hline' hn (Text.segments after)
  rw [Idiom.ids, hbefore.segments_append, Text.segments_word (by decide) hwords hopens, hlist]
  · apply Idiom.mem_idsIn_append
    rw [Idiom.idsIn, if_pos rfl]
    apply List.mem_append_left
    rw [Text.segments_of_isOtherChar (c := '(') (by decide), List.cons_append] at htaken ⊢
    rw [Idiom.taken, htaken]
    exact List.mem_singleton_self n
  · intro c hc hw
    rw [hapart c hc] at hw
    cases hw
  · intro c _ _ d hd
    have hd' : d ∈ Idiom.variableEvent.callee.head? := hd
    simp [isOtherChar, hwords d (List.mem_of_mem_head? hd')]

end Usage

namespace LiteralCall

open Usage (Idiom)

variable {callee first line : Text} {n m : Nat}

/-- The literal is the one that a variable event takes, when the first argument holds none. -/
theorem mem_ids {body : Text} (hsealed : Sealed m body) (hn : n < indexLimit)
    (hline : line ∈ Text.pieces '\n' body)
    (h : LiteralCall Idiom.variableEvent.callee first n line) (hfirst : mark ∉ first) :
    n ∈ Idiom.variableEvent.ids body := by
  obtain ⟨start, stop, rfl, hstart, -⟩ := Text.exists_of_mem_pieces hline
  have hnewline := Text.not_mem_of_mem_pieces hline
  obtain ⟨before, d, tail, -, rfl, hapart⟩ := h.exists_text
  have hbody :
      start ++
        (before ++
          (Idiom.variableEvent.callee ++ '(' :: (first ++ ',' :: (placeholder n ++ d :: tail)))) ++
            stop =
      (start ++ before) ++
        (Idiom.variableEvent.callee ++ '(' ::
          ((first ++ [',']) ++ (placeholder n ++ (d :: tail ++ stop)))) := by
    simp
  rw [hbody] at hsealed ⊢
  have hcallee : mark ∉ Idiom.variableEvent.callee := by decide
  have hopen : Sealed m (start ++ before) := by
    rw [← List.append_assoc] at hsealed
    exact (hsealed.of_append_cons (by decide)).1.of_append_of_not_mem hcallee
  refine Usage.mem_ids_of_segments hopen (fun c hc => ?_) ?_ ?_ hn _
  · rw [List.getLast?_append] at hc
    cases hb : before.getLast? with
    | none =>
      rw [hb] at hc
      rw [hstart c hc]
      decide
    | some d =>
      rw [hb] at hc
      rw [← Option.some.inj hc]
      exact hapart d hb
  · rw [List.mem_append, not_or]
    exact ⟨hfirst, by decide⟩
  · simp only [List.mem_append, List.mem_cons, List.not_mem_nil, or_false, not_or] at hnewline ⊢
    exact ⟨hnewline.2.2.2.1, by decide⟩

/-! ### Replacing words -/

/-- A call stays a call when words are replaced, and its literal stays its second argument. -/
theorem replaceWords {f : Text → Option Text} (hf : Text.Smooth f) (hne : callee ≠ [])
    (hcallee : ∀ c ∈ callee, isWordChar c = true) (hsealed : Sealed m line)
    (h : LiteralCall callee first n line) :
    LiteralCall ((f callee).getD callee) (Text.replaceWords f first) n
    (Text.replaceWords f line) := by
  obtain @⟨before, inside, after, rest, apart, closes, arguments⟩ := h
  have hmark : mark ∉ callee := fun hmem => absurd (hcallee mark hmem) (by decide)
  rw [← List.append_assoc] at hsealed
  obtain ⟨hstart, hlist⟩ := hsealed.of_append_cons (by decide)
  have hbefore := hstart.of_append_of_not_mem hmark
  have hinside := (hlist.of_append_cons (by decide)).1
  have hline : Text.replaceWords f (before ++ (callee ++ '(' :: (inside ++ ')' :: after))) =
      Text.replaceWords f before ++ ((f callee).getD callee ++
        '(' :: (Text.replaceWords f inside ++ ')' :: Text.replaceWords f after)) := by
    rw [hbefore.replaceWords_append,
      Text.replaceWords_run hne hcallee (Text.startsNoWord_of_isOtherChar (by decide) _),
      Sealed.replaceWords_cons (by decide), hinside.replaceWords_append_cons (by decide)]
    intro c hc hw
    rw [apart c hc] at hw
    cases hw
  have hstarts : ∀ c ∈ (Text.replaceWords f before).getLast?, isWordChar c = false := by
    intro c hc
    rcases hbefore.getLast?_replaceWords hf c hc with hlast | ⟨-, d, hd, hw⟩
    · exact apart c hlast
    · rw [apart d hd] at hw
      cases hw
  have hargs : argumentsFrom 0 false (Text.replaceWords f inside) =
      Text.replaceWords f first :: placeholder n :: rest.map (Text.replaceWords f) := by
    have hliteral := Text.replaceWords_placeholder (f := f) n []
    rw [List.append_nil, Text.replaceWords_nil, List.append_nil] at hliteral
    rw [hinside.argumentsFrom_replaceWords hf 0, argumentsFrom_eq arguments, List.map_cons,
      List.map_cons, hliteral]
  have hmem : mark ∈ Text.trim (Text.replaceWords f inside) := by
    refine Text.mem_trim (by decide) ?_
    rw [← Substitution.joined_argumentsFrom 0 false (Text.replaceWords f inside), hargs,
      Text.joined_cons_cons]
    cases rest with
    | nil => simp [Text.joined, List.intercalate, placeholder]
    | cons second more => simp [Text.joined_cons_cons, placeholder]
  rw [hline]
  refine .intro hstarts (hinside.closeFrom_replaceWords hf _ closes) (Eq.trans (if_neg ?_) hargs)
  exact fun hblank => List.ne_nil_of_mem hmem (List.isEmpty_iff.1 hblank)

/-- A call stays when its line loses a carriage return. -/
theorem dropReturn (hsealed : Sealed m line) (h : LiteralCall callee first n line) :
    LiteralCall callee first n (Text.dropReturn line) := by
  rcases Text.dropReturn_cases line with heq | heq
  · rwa [heq]
  generalize Text.dropReturn line = kept at heq ⊢
  obtain @⟨before, inside, after, rest, apart, closes, arguments⟩ := h
  rw [← List.append_assoc] at hsealed
  obtain ⟨-, hlist⟩ := hsealed.of_append_cons (by decide)
  have hinside := (hlist.of_append_cons (by decide)).1
  rcases after.eq_nil_or_concat with rfl | ⟨shorter, c, rfl⟩
  · have hsplit : (before ++ (callee ++ '(' :: inside)) ++ [')'] = kept ++ ['\r'] := by
      simpa using heq
    cases (List.append_inj' hsplit rfl).2
  · have hsplit : (before ++ (callee ++ '(' :: (inside ++ ')' :: shorter))) ++ [c] =
        kept ++ ['\r'] := by simpa using heq
    have hkept := (List.append_inj' hsplit rfl).1
    have hcloses := hinside.closeFrom_replaceWords (f := fun _ => none) nofun shorter closes
    rw [Text.replaceWords_none] at hcloses
    rw [← hkept]
    exact .intro apart hcloses arguments

end LiteralCall
end ScriptMinifier
