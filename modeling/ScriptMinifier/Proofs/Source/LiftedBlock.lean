import ScriptMinifier.Proofs.Literal.Rawcodes
import ScriptMinifier.Proofs.Source.Relexing

/-! A text between the words of a function block.

Literals are found in two ways: `Literals.lift` looks for quotes alone, in a text that is no script,
while the lexemes of a script tell quotes from comments and words. On a text without comments the
two cut at the same places: the lexemes of the text leave what lifting leaves, and number the
literals alike (`exists_lexemes_lift`). So the text in the words of a function block is read as the
one block that lifting makes of it (`blocks_inFunction`). -/
namespace ScriptMinifier.Source

open Literal (placeholder)
open Text (isQuote isWordChar isOtherChar closeQuote? mark StartsNoWord words)

variable {ls : Literals} {s : Text}

/-! ### Texts whose quotes are closed -/

/-- What lifting leaves starts a word only where the text does. -/
theorem startsNoWord_lift (ls : Literals) (hs : StartsNoWord s) : StartsNoWord (ls.lift s).1 := by
  cases s with
  | nil =>
    rw [Literals.lift]
    exact hs
  | cons c rest =>
    have hkept : ∀ t, StartsNoWord (c :: t) := fun t d more heq => by
      rw [← (List.cons.inj heq).1]
      exact hs c rest rfl
    by_cases hc : isQuote c = true
    · cases hclose : closeQuote? c rest with
      | none =>
        rw [Literals.lift_unclosed hc hclose]
        exact hkept rest
      | some cut =>
        rw [Literals.lift_closed hc hclose]
        exact Literal.startsNoWord_placeholder _ _
    · rw [Literals.lift, if_neg hc]
      exact hkept _

theorem lift_literal {raw : Text} (h : ClosedLiteral raw) (ls : Literals) (after : Text) :
    ls.lift (raw ++ after) =
      (placeholder ls.size ++ ((ls.intern raw).2.lift after).1,
        ((ls.intern raw).2.lift after).2) := by
  obtain ⟨quote, inside, rfl, hquote, hclose⟩ := h
  exact Literals.lift_closed hquote (hclose after) ls

/-- Induction over the words, the other characters and the literals of a text in which lifting
leaves no quote. A literal is one more of the table with which the rest is lifted. -/
theorem literalwise {motive : Literals → Text → Prop} (nil : ∀ ls, motive ls [])
    (other : ∀ ls c t, isOtherChar c = true → isQuote c = false → motive ls t → motive ls (c :: t))
    (word : ∀ ls w t, w ≠ [] → (∀ c ∈ w, isWordChar c = true) → StartsNoWord t → motive ls t →
      motive ls (w ++ t))
    (literal : ∀ ls raw t, ClosedLiteral raw → motive (ls.intern raw).2 t → motive ls (raw ++ t))
    (ls : Literals) (s : Text) (hmark : mark ∉ s)
    (hquotes : ∀ c ∈ (ls.lift s).1, isQuote c = false) : motive ls s := by
  match s with
  | [] => exact nil ls
  | c :: rest =>
    by_cases hquote : isQuote c = true
    · have hslash : c ≠ '\\' := by
        rintro rfl
        cases hquote
      cases hclose : closeQuote? c rest with
      | none =>
        rw [Literals.lift_unclosed hquote hclose, List.forall_mem_cons, hquote] at hquotes
        cases hquotes.1
      | some cut =>
        obtain ⟨inside, after⟩ := cut
        have hliteral : ClosedLiteral (c :: inside) :=
          ⟨c, inside, rfl, hquote, closeQuote?_append hslash hclose⟩
        rw [Literals.lift_closed hquote hclose] at hquotes
        rw [Text.closeQuote?_eq_some hclose] at hmark ⊢
        exact literal ls (c :: inside) after hliteral <|
          literalwise nil other word literal _ after
            (fun hm => hmark (List.mem_append_right (c :: inside) hm))
            fun d hd => hquotes d (List.mem_append_right _ hd)
    · rw [Bool.not_eq_true] at hquote
      by_cases hword : isWordChar c = true
      · obtain ⟨hsplit, hrun⟩ := Text.exists_run hword rest
        rw [hsplit] at hmark hquotes ⊢
        rw [Literals.lift_append fun d hd => isQuote_of_isWordChar (hrun d hd)] at hquotes
        exact word ls _ _ (by simp) hrun (Text.startsNoWord_dropWhile rest) <|
          literalwise nil other word literal ls _ (fun hm => hmark (List.mem_append_right _ hm))
            fun d hd => hquotes d (List.mem_append_right _ hd)
      · rw [List.mem_cons, not_or] at hmark
        have hother : isOtherChar c = true := by simp [isOtherChar, hword, Ne.symm hmark.1]
        rw [Literals.lift_cons hquote, List.forall_mem_cons] at hquotes
        exact other ls c rest hother hquote <|
          literalwise nil other word literal ls rest hmark.2 hquotes.2
termination_by s.length
decreasing_by
  · rw [Text.closeQuote?_eq_some hclose]
    simp
  · exact Nat.lt_succ_of_le (List.dropWhile_suffix _).length_le
  · exact Nat.lt_succ_self _

/-! ### Lexemes -/

/-- Lexemes that a text has when a newline follows it, and that leave what lifting leaves: all are
read to their end, and their words are words of what is left. -/
structure ReadsAsLifted (ls : Literals) (s : Text) (body : List Lexeme) : Prop where
  lexemes : ∀ t, lexemes (s ++ '\n' :: t) = body ++ lexemes ('\n' :: t)
  collected : collectBody ls body = ls.lift s
  words : ∀ w, .word w ∈ body → w ∈ words (ls.lift s).1
  closed : ∀ l ∈ body, l.openPart? = none

namespace ReadsAsLifted

theorem startsNoWord_before_newline (hs : StartsNoWord s) (t : Text) :
    StartsNoWord (s ++ '\n' :: t) := by
  cases s with
  | nil => exact Text.startsNoWord_of_isOtherChar (by decide) t
  | cons d more => exact hs.append (by simp) _

variable {t : Text} {body : List Lexeme}

theorem nil (ls : Literals) : ReadsAsLifted ls [] [] where
  lexemes _ := rfl
  collected := by
    rw [Literals.lift]
    rfl
  words := nofun
  closed := nofun

/-- A slash before another slash or a star would be left by lifting, and start a comment. -/
theorem not_opens {c d : Char} (hd : isQuote d = false) (hd' : d ≠ '\n')
    (hpart : ¬ [c, d] <:+: c :: (ls.lift s).1) (t : Text) : (s ++ '\n' :: t).head? ≠ some d := by
  intro hhead
  cases s with
  | nil => exact hd' (Option.some.inj hhead).symm
  | cons e rest =>
    obtain rfl : e = d := Option.some.inj hhead
    rw [Literals.lift_cons hd] at hpart
    exact hpart ⟨[], (ls.lift rest).1, rfl⟩

theorem other {c : Char} (hc : isOtherChar c = true) (hquote : isQuote c = false)
    (hcomments : Uncommented (c :: (ls.lift s).1)) (h : ReadsAsLifted ls s body) :
    ReadsAsLifted ls (c :: s) (.char c :: body) := by
  have hlift := Literals.lift_cons hquote ls s
  constructor
  · intro t
    rw [List.cons_append, lexemes_other hc hquote, h.lexemes t, List.cons_append]
    · rintro ⟨rfl, hhead⟩
      exact not_opens (by decide) (by decide) hcomments.1 t hhead
    · rintro ⟨rfl, hhead⟩
      exact not_opens (by decide) (by decide) hcomments.2 t hhead
  · rw [collectBody_cons, hlift, ← h.collected]
    rfl
  · intro w hw
    rw [hlift, Text.words_other hc]
    exact h.words w ((List.mem_cons.1 hw).resolve_left Lexeme.noConfusion)
  · exact List.forall_mem_cons.2 ⟨rfl, h.closed⟩

theorem word {w : Text} (hne : w ≠ []) (hw : ∀ c ∈ w, isWordChar c = true) (hs : StartsNoWord s)
    (h : ReadsAsLifted ls s body) : ReadsAsLifted ls (w ++ s) (.word w :: body) := by
  have hlift := Literals.lift_append (fun c hc => isQuote_of_isWordChar (hw c hc)) ls s
  constructor
  · intro t
    rw [List.append_assoc, lexemes_word hne hw (startsNoWord_before_newline hs t), h.lexemes t,
      List.cons_append]
  · rw [collectBody_cons, hlift, ← h.collected]
    rfl
  · intro v hv
    rw [hlift, Text.words_word hne hw (startsNoWord_lift ls hs), List.mem_cons]
    rcases List.mem_cons.1 hv with heq | hv
    · exact .inl (Lexeme.word.inj heq)
    · exact .inr (h.words v hv)
  · exact List.forall_mem_cons.2 ⟨rfl, h.closed⟩

theorem literal {raw : Text} (hraw : ClosedLiteral raw)
    (h : ReadsAsLifted (ls.intern raw).2 s body) :
    ReadsAsLifted ls (raw ++ s) (.ofLiteral raw :: body) := by
  constructor
  · intro t
    rw [List.append_assoc, lexemes_literal hraw, h.lexemes t, List.cons_append]
  · rw [collectBody_cons, collect_ofLiteral, lift_literal hraw, ← h.collected]
    rfl
  · intro w hw
    rw [lift_literal hraw, Sealed.words_placeholder]
    exact h.words w ((List.mem_cons.1 hw).resolve_left Lexeme.noConfusion)
  · exact List.forall_mem_cons.2 ⟨rfl, h.closed⟩

end ReadsAsLifted

/-- Where no comment starts, lexemes and lifting find the same literals. -/
theorem exists_lexemes_lift (ls : Literals) (hmark : mark ∉ s)
    (hquotes : ∀ c ∈ (ls.lift s).1, isQuote c = false)
    (hcomments : Uncommented (ls.lift s).1) : ∃ body, ReadsAsLifted ls s body := by
  refine literalwise
    (motive := fun ls s => Uncommented (ls.lift s).1 → ∃ body, ReadsAsLifted ls s body)
    ?nil ?other ?word ?literal ls s hmark hquotes hcomments
  case nil => exact fun ls _ => ⟨[], .nil ls⟩
  case other =>
    intro ls c t hc hquote ih hcomments
    rw [Literals.lift_cons hquote] at hcomments
    obtain ⟨body, hbody⟩ := ih (hcomments.of_part (List.suffix_cons c _).isInfix)
    exact ⟨_, hbody.other hc hquote hcomments⟩
  case word =>
    intro ls w t hne hw ht ih hcomments
    rw [Literals.lift_append fun c hc => isQuote_of_isWordChar (hw c hc)] at hcomments
    obtain ⟨body, hbody⟩ := ih (hcomments.of_part (List.suffix_append w _).isInfix)
    exact ⟨_, hbody.word hne hw ht⟩
  case literal =>
    intro ls raw t hraw ih hcomments
    rw [lift_literal hraw] at hcomments
    obtain ⟨body, hbody⟩ :=
      ih (hcomments.of_part (List.suffix_append (placeholder ls.size) _).isInfix)
    exact ⟨_, hbody.literal hraw⟩

/-! ### The block -/

/-- A text between the words of a function. -/
def inFunction (s : Text) : Text := "function\n".toList ++ s ++ "\nendfunction".toList

/-- A script that is one function block, closed at its end, is read as that block. -/
theorem blocks_function {src : Text} {body : List Lexeme}
    (hbody : BlockKind.function.closing ∉ body)
    (hlexemes : lexemes src =
      .word BlockKind.function.keyword :: (body ++ [BlockKind.function.closing])) :
    blocks src =
      .ok { functions := [(collectBody {} body).1], literals := (collectBody {} body).2 } := by
  have hregions : regions (lexemes src) = [.block .function body true] := by
    rw [hlexemes, ClosedBlock.regions_block hbody, regions]
  have hend : openEnd? src = none := by
    have hlast : (lexemes src).getLast? = some BlockKind.function.closing := by
      rw [hlexemes, ← List.cons_append, List.getLast?_concat]
    rw [openEnd?, hlast, hregions]
    rfl
  rw [blocks, hend, collected, hregions]
  rfl

/-- **The two ways of finding literals agree.** A text in which lifting leaves no quote, no comment
and no word that ends a function is, between the words of a function, read as the one block that
lifting makes of it. -/
theorem blocks_inFunction (hmark : mark ∉ s)
    (hquotes : ∀ c ∈ (Literals.lift {} s).1, isQuote c = false)
    (hcomments : Uncommented (Literals.lift {} s).1)
    (hending : "endfunction".toList ∉ words (Literals.lift {} s).1) :
    blocks (inFunction s) =
      .ok { globals := [], functions := ['\n' :: (Literals.lift {} s).1 ++ ['\n']], natives := [],
            literals := (Literals.lift {} s).2 } := by
  obtain ⟨inner, hinner⟩ := exists_lexemes_lift {} hmark hquotes hcomments
  have hlexemes : lexemes (inFunction s) =
      .word BlockKind.function.keyword ::
        (.char '\n' :: (inner ++ [.char '\n']) ++ [BlockKind.function.closing]) := by
    have hsplit : inFunction s = "function".toList ++ ['\n'] ++ s ++ '\n' :: "endfunction".toList :=
      congrArg₂ (fun opening ending : Text => opening ++ s ++ ending) (by decide) (by decide)
    have hfirst := lexemes_word (w := "function".toList) (by decide) (by decide)
      (Text.startsNoWord_of_isOtherChar (c := '\n') (by decide) (s ++ '\n' :: "endfunction".toList))
    have hlast : lexemes "endfunction".toList = [.word "endfunction".toList] := by
      have hword := lexemes_word (w := "endfunction".toList) (t := []) (by decide) (by decide) nofun
      rwa [List.append_nil, lexemes] at hword
    rw [hsplit, List.append_assoc, List.append_assoc, List.singleton_append, hfirst,
      lexemes_newline, hinner.lexemes, lexemes_newline, hlast, List.cons_append, List.append_assoc]
    rfl
  have hclosing : BlockKind.function.closing ∉ .char '\n' :: (inner ++ [.char '\n']) := by
    intro hmem
    simp only [List.mem_cons, List.mem_append, List.not_mem_nil, or_false] at hmem
    rcases hmem with heq | hmem | heq
    · cases heq
    · exact hending (hinner.words _ hmem)
    · cases heq
  have hcollected : collectBody {} (.char '\n' :: (inner ++ [.char '\n'])) =
      ('\n' :: (Literals.lift {} s).1 ++ ['\n'], (Literals.lift {} s).2) := by
    rw [collectBody_cons, Lexeme.collect, collectBody_append, hinner.collected]
    rfl
  rw [blocks_function hclosing hlexemes, hcollected]

/-- Comment signs and the other quote inside literals, an escaped quote, a word that only starts
like the one that ends a function, and a slash before a literal. -/
def quotedSlashes : Text := "set s=\"// it's \\\"/*\"+'\\''/\"/\" endfunctions".toList

theorem blocks_inFunction_quotedSlashes :
    (mark ∉ quotedSlashes ∧ (∀ c ∈ (Literals.lift {} quotedSlashes).1, isQuote c = false) ∧
      Uncommented (Literals.lift {} quotedSlashes).1 ∧
      "endfunction".toList ∉ words (Literals.lift {} quotedSlashes).1) ∧
    blocks (inFunction quotedSlashes) =
      .ok {
        globals := [], functions := ['\n' :: (Literals.lift {} quotedSlashes).1 ++ ['\n']],
        natives := [], literals := (Literals.lift {} quotedSlashes).2 } := by
  have hmark : mark ∉ quotedSlashes := by decide +kernel
  have hquotes : ∀ c ∈ (Literals.lift {} quotedSlashes).1, isQuote c = false := by decide +kernel
  have hcomments : Uncommented (Literals.lift {} quotedSlashes).1 :=
    ⟨by decide +kernel, by decide +kernel⟩
  have hending : "endfunction".toList ∉ words (Literals.lift {} quotedSlashes).1 := by
    decide +kernel
  exact ⟨⟨hmark, hquotes, hcomments, hending⟩, blocks_inFunction hmark hquotes hcomments hending⟩

end ScriptMinifier.Source
