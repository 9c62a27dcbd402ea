import ScriptMinifier.Proofs.Constant.Names
import ScriptMinifier.Proofs.Literal.Restoring

/-! Cutting expressions side by side.

Whether two texts side by side are cut into the pieces of each depends on two characters only, the
last of the one and the first of the other (`Apart`), as long as no placeholder of the first runs on
into the second (`piecesOf_append`). A text that has tokens leaves no placeholder open
(`shut_of_tokens`), so the tokens of texts that are apart are those of each (`tokens_append`). -/
namespace ScriptMinifier.Constant

open Text (mark isWordChar isDigitOf)
open Literal (placeholderId? readIndex?)

/-! ### Characters that run together -/

/-- Whether a piece that ends with one character may run on over another. -/
def joins (a b : Char) : Bool :=
  isWordChar a && (isWordChar b || b == '.') || a == '$' && isDigitOf 16 b ||
    a == '.' && b.isDigit ||
    (a == '<' || a == '>' || a == '=' || a == '!') && b == '='

/-- No piece of one text runs on over the other. -/
def Apart (s t : Text) : Prop := ∀ a ∈ s.getLast?, ∀ b ∈ t.head?, joins a b = false

theorem joins_word {a b : Char} (ha : isWordChar a = true) (h : joins a b = false) :
    isWordChar b = false ∧ b ≠ '.' := by
  simp only [joins, Bool.or_eq_false_iff, ha, Bool.true_and] at h
  exact ⟨h.1.1.1.1, by simpa using h.1.1.1.2⟩

theorem joins_dollar {b : Char} (h : joins '$' b = false) : isDigitOf 16 b = false := by
  simp only [joins, Bool.or_eq_false_iff] at h
  simpa using h.1.1.2

theorem joins_point {b : Char} (h : joins '.' b = false) : b.isDigit = false := by
  simp only [joins, Bool.or_eq_false_iff] at h
  simpa using h.1.2

theorem joins_equals {a b : Char} (ha : a = '<' ∨ a = '>' ∨ a = '=' ∨ a = '!')
    (h : joins a b = false) : b ≠ '=' := by
  simp only [joins, Bool.or_eq_false_iff, Bool.and_eq_false_iff] at h
  have := h.2
  rcases ha with rfl | rfl | rfl | rfl <;> simpa using this

namespace Apart

variable {c : Char} {s t : Text}

theorem of_suffix {u : Text} (h : Apart s t) (hu : u <:+ s) : Apart u t := by
  by_cases hne : u = []
  · subst hne
    intro a ha
    cases ha
  · obtain ⟨front, rfl⟩ := hu
    rwa [Apart, List.getLast?_append_of_ne_nil _ hne] at h

/-- What follows a word is no part of it. -/
theorem of_words (h : Apart s t) (hne : s ≠ []) (hword : ∀ d ∈ s, isWordChar d = true) :
    ∀ b ∈ t.head?, isWordChar b = false ∧ b ≠ '.' := by
  intro b hb
  exact joins_word (hword _ (List.getLast_mem hne)) (h _ (List.getLast?_eq_some_getLast hne) b hb)

end Apart

theorem joins_eq_false {a b : Char} (hword : isWordChar b = false) (hpoint : b ≠ '.')
    (hequals : b ≠ '=') : joins a b = false := by
  have hdigit : b.isDigit = false := not_of_not_word (fun _ => isWordChar_of_isDigit) hword
  have hhex : isDigitOf 16 b = false := not_of_not_word (fun _ => isWordChar_of_isDigitOf) hword
  simp [joins, hword, hpoint, hequals, hdigit, hhex]

theorem joins_word_eq_false {a b : Char} (ha : isWordChar a = true) (hword : isWordChar b = false)
    (hpoint : b ≠ '.') :
    joins a b = false := by
  have hhex : isDigitOf 16 b = false := not_of_not_word (fun _ => isWordChar_of_isDigitOf) hword
  have hsymbol {c : Char} (hc : isWordChar c = false) : a ≠ c := by
    rintro rfl
    rw [ha] at hc
    cases hc
  have hdigit : b.isDigit = false := not_of_not_word (fun _ => isWordChar_of_isDigit) hword
  simp [joins, hword, hpoint, hhex, hdigit, hsymbol (c := '<') (by decide),
    hsymbol (c := '>') (by decide), hsymbol (c := '=') (by decide), hsymbol (c := '!') (by decide)]

/-- Nothing runs on over a symbol, unless it starts with an equals sign. -/
theorem apart_cons (s : Text) {c : Char} (hword : isWordChar c = false) (hpoint : c ≠ '.')
    (hequals : c ≠ '=') (t : Text) :
    Apart s (c :: t) := by
  intro a _ b hb
  obtain rfl := Option.some.inj hb
  exact joins_eq_false hword hpoint hequals

theorem apart_leftParen (s t : Text) : Apart s ('(' :: t) :=
  apart_cons s (by decide) (by decide) (by decide) t

/-! ### One piece -/

/-- A symbol looks at one character after it, for an equals sign. -/
theorem symbol_cons (c d : Char) (more : Text) :
    symbol c (d :: more) = if d = '=' then
      (match c with
        | '=' => (.comparison .equal, more)
        | '!' => (.comparison .unequal, more)
        | '<' => (.comparison .atMost, more)
        | '>' => (.comparison .atLeast, more)
        | c => ((symbol c []).1, d :: more))
      else ((symbol c []).1, d :: more) := by
  split
  · rename_i h
    subst h
    split
    iterate 4 rfl
    unfold symbol
    split <;> simp_all
  · unfold symbol
    split <;> simp_all

theorem symbol_nil (c : Char) : (symbol c []).2 = [] := by
  unfold symbol
  split <;> simp_all

theorem symbol_append {c : Char} {rest t : Text} (h : Apart (c :: rest) t) :
    symbol c (rest ++ t) = ((symbol c rest).1, (symbol c rest).2 ++ t) := by
  match rest, t with
  | [], [] => exact Prod.ext rfl (by simp [symbol_nil])
  | [], d :: more =>
    have hjoins : joins c d = false := h c rfl d rfl
    rw [List.nil_append, symbol_nil, List.nil_append, symbol_cons]
    split
    · rename_i hd
      split
      iterate 4 exact absurd hd (joins_equals (by decide) hjoins)
      rfl
    · rfl
  | d :: more, t =>
    rw [List.cons_append, symbol_cons, symbol_cons]
    split
    · split <;> rfl
    · rfl

/-- Whether a piece is no placeholder, or one that is closed. -/
def Piece.isClosed : Piece → Bool
  | placeholder t => t.tail.contains mark
  | _ => true

theorem mark_mem_of_isClosed {rest : Text}
    (h : (Piece.placeholder (mark :: Text.throughMark rest)).isClosed = true) :
    ∃ inner more, mark ∉ inner ∧ rest = inner ++ mark :: more := by
  rw [Piece.isClosed, List.tail_cons, List.contains_eq_mem, decide_eq_true_eq] at h
  have hmem : mark ∈ rest := by
    rw [← Text.throughMark_append_afterMark rest]
    exact List.mem_append_left _ h
  obtain ⟨inner, more, rfl, hinner⟩ := List.eq_append_cons_of_mem hmem
  exact ⟨inner, more, hinner, rfl⟩

theorem forall_head?_append {q : Char → Prop} {s t : Text} (hs : ∀ b ∈ s.head?, q b)
    (ht : s = [] → ∀ b ∈ t.head?, q b) :
    ∀ b ∈ (s ++ t).head?, q b := by
  cases s with
  | nil => exact ht rfl
  | cons c rest => exact hs

namespace CutOff

variable {s t more : Text} {p : Piece}

/-- A piece ends where it did when what follows is apart. -/
theorem append (h : CutOff s p more) (hclosed : p.isClosed = true) (hapart : Apart s t) :
    CutOff (s ++ t) p (more ++ t) := by
  -- what follows a run of word characters that ends the text
  have hword {run : Text} (hrun : run <:+ s) (hne : run ≠ [])
      (hall : ∀ d ∈ run, isWordChar d = true) :
      ∀ b ∈ t.head?, isWordChar b = false ∧ b ≠ '.' := (hapart.of_suffix hrun).of_words hne hall
  cases h with
  | placeholder rest =>
    obtain ⟨inner, more, hinner, rfl⟩ := mark_mem_of_isClosed hclosed
    have hcut := placeholder (inner ++ mark :: (more ++ t))
    rw [Text.throughMark_append hinner, Text.afterMark_append hinner] at hcut
    rwa [Text.throughMark_append hinner, Text.afterMark_append hinner, List.cons_append,
      List.append_assoc, List.cons_append]
  | @dollar digits _ hdigits hends =>
    rw [List.cons_append, List.append_assoc]
    refine dollar hdigits (forall_head?_append hends fun hnil b hb => ?_)
    subst hnil
    rw [List.append_nil] at hapart hword
    by_cases hne : digits = []
    · subst hne
      exact joins_dollar (hapart _ rfl b hb)
    · have hb :=
        hword (List.suffix_cons _ _) hne (fun d hd => isWordChar_of_isDigitOf (hdigits d hd)) b hb
      exact not_of_not_word (fun _ => isWordChar_of_isDigitOf) hb.1
  | @hexadecimal x digits _ hx hdigits hends =>
    rw [List.cons_append, List.cons_append, List.append_assoc]
    refine hexadecimal hx hdigits (forall_head?_append hends fun hnil b hb => ?_)
    subst hnil
    rw [List.append_nil] at hword
    have hb := hword (List.suffix_cons _ _) (List.cons_ne_nil x digits) (List.forall_mem_cons.2
      ⟨by rcases hx with rfl | rfl <;> decide, fun d hd => isWordChar_of_isDigitOf (hdigits d hd)⟩)
        b hb
    exact not_of_not_word (fun _ => isWordChar_of_isDigitOf) hb.1
  | @whole digits _ hne hdigits hends hsign =>
    have hnext (hnil : more = []) : ∀ b ∈ t.head?, isWordChar b = false ∧ b ≠ '.' := by
      subst hnil
      rw [List.append_nil] at hword
      exact hword List.suffix_rfl hne fun d hd => isWordChar_of_isDigit (hdigits d hd)
    rw [List.append_assoc]
    refine whole hne hdigits (forall_head?_append hends fun hnil b hb => ?_) fun hzero =>
      forall_head?_append (hsign hzero) fun hnil b hb => ?_
    · exact ⟨not_of_not_word (fun _ => isWordChar_of_isDigit) (hnext hnil b hb).1,
        (hnext hnil b hb).2⟩
    · have hb := (hnext hnil b hb).1
      rintro (rfl | rfl) <;> cases hb
  | @fraction digits places _ hne hdigits hplaces hends =>
    rw [List.append_assoc, List.cons_append, List.append_assoc]
    refine fraction hne hdigits hplaces (forall_head?_append hends fun hnil b hb => ?_)
    subst hnil
    rw [List.append_nil] at hapart hword
    by_cases hne : places = []
    · subst hne
      exact joins_point (hapart.of_suffix (List.suffix_append _ _) '.' rfl b hb)
    · have hb := hword ((List.suffix_cons _ _).trans (List.suffix_append _ _)) hne
        (fun d hd => isWordChar_of_isDigit (hplaces d hd)) b hb
      exact not_of_not_word (fun _ => isWordChar_of_isDigit) hb.1
  | word hne hw hdigit hends =>
    rw [List.append_assoc]
    refine word hne hw hdigit (forall_head?_append hends fun hnil b hb => ?_)
    subst hnil
    rw [List.append_nil] at hword
    exact (hword List.suffix_rfl hne hw b hb).1
  | @symbol c rest hc hdollar hpoint =>
    have hcut : CutOff (c :: (rest ++ t)) _ _ :=
        symbol hc hdollar fun hc => forall_head?_append (hpoint hc) fun hnil b hb => by
      subst hnil hc
      exact joins_point (hapart _ rfl b hb)
    rwa [symbol_append hapart] at hcut

theorem suffix (h : CutOff s p more) : more <:+ s := by
  cases h with
  | placeholder rest =>
    exact (List.drop_suffix 1 _).trans ((List.dropWhile_suffix _).trans (List.suffix_cons _ _))
  | dollar => exact (List.suffix_append _ _).trans (List.suffix_cons _ _)
  | hexadecimal =>
    exact (List.suffix_append _ _).trans ((List.suffix_cons _ _).trans (List.suffix_cons _ _))
  | whole | word => exact List.suffix_append _ _
  | fraction =>
    exact (List.suffix_append _ _).trans ((List.suffix_cons _ _).trans (List.suffix_append _ _))
  | @symbol c rest =>
    rcases symbol_cases c rest with heq | ⟨tail, hrest, heq⟩
    · rw [heq]
      exact List.suffix_cons _ _
    · rw [heq, hrest]
      exact (List.suffix_cons _ _).trans (List.suffix_cons _ _)

/-- A piece that is not closed takes all of the text. -/
theorem of_not_isClosed (h : CutOff s p more) (hopen : p.isClosed ≠ true) :
    ∃ inner, mark ∉ inner ∧ s = mark :: inner := by
  cases h with
  | placeholder rest =>
    refine ⟨rest, fun hmem => hopen ?_, rfl⟩
    obtain ⟨inner, more, rfl, hinner⟩ := List.eq_append_cons_of_mem hmem
    rw [Text.throughMark_append hinner]
    simp [Piece.isClosed]
  | @symbol c rest =>
    refine absurd ?_ hopen
    unfold Constant.symbol
    split <;> rfl
  | _ => exact absurd rfl hopen

end CutOff

/-! ### All pieces -/

/-- No piece of a text is a placeholder that is not closed. -/
def Shut (t : Text) : Prop := ∀ p ∈ piecesOf t, p.isClosed = true

theorem piecesOf_mark (rest : Text) :
    piecesOf (mark :: rest) = .placeholder (mark :: Text.throughMark rest) :: piecesOf
    (Text.afterMark rest) := by
  have hsep : isSeparator mark = false := by decide
  rw [piecesOf, hsep, piece, if_pos rfl]
  rfl

/-- The pieces of texts that are apart are those of each. -/
theorem piecesOf_append {s t : Text} (hshut : Shut s) (h : Apart s t) :
    piecesOf (s ++ t) = piecesOf s ++ piecesOf t := by
  unfold Shut at hshut
  fun_induction piecesOf s with
  | case1 => rfl
  | case2 c rest hsep ih =>
    rw [List.cons_append, piecesOf, if_pos hsep]
    exact ih hshut (h.of_suffix (List.suffix_cons c rest))
  | case3 c rest hsep ih =>
    obtain ⟨hfirst, hrest⟩ := List.forall_mem_cons.1 hshut
    have hcut := cutOff_piece c rest
    rw [(hcut.append hfirst h).piecesOf_eq (by simpa using hsep),
      ih hrest (h.of_suffix hcut.suffix), List.cons_append]

/-- What stands before an open placeholder does not change it. -/
theorem exists_open_placeholder {s t : Text} (hopen : ¬ Shut s) (h : Apart s t) :
    ∃ inner, mark ∉ inner ∧ Piece.placeholder (mark :: Text.throughMark (inner ++ t)) ∈ piecesOf
    (s ++ t) := by
  unfold Shut at hopen
  fun_induction piecesOf s with
  | case1 => exact absurd (fun _ hp => absurd hp List.not_mem_nil) hopen
  | case2 c rest hsep ih =>
    rw [List.cons_append, piecesOf, if_pos hsep]
    exact ih hopen (h.of_suffix (List.suffix_cons c rest))
  | case3 c rest hsep ih =>
    rw [List.forall_mem_cons, not_and] at hopen
    have hcut := cutOff_piece c rest
    by_cases hclosed : (piece c rest).1.isClosed = true
    · obtain ⟨inner, hinner, hpiece⟩ := ih (hopen hclosed) (h.of_suffix hcut.suffix)
      refine ⟨inner, hinner, ?_⟩
      rw [(hcut.append hclosed h).piecesOf_eq (by simpa using hsep)]
      exact List.mem_cons_of_mem _ hpiece
    · obtain ⟨inner, hinner, heq⟩ := hcut.of_not_isClosed hclosed
      rw [heq, List.cons_append, piecesOf_mark]
      exact ⟨inner, hinner, List.mem_cons_self⟩

/-! ### Tokens -/

theorem dropEnd?_eq_some {ending t rest : Text} (h : Text.dropEnd? ending t = some rest) :
    t = rest ++ ending := by
  unfold Text.dropEnd? at h
  split at h
  · rename_i hsuffix
    obtain ⟨front, rfl⟩ := List.isSuffixOf_iff_suffix.1 hsuffix
    simp at h
    rw [← h]
  · cases h

/-- A placeholder that stands for a number holds digits and signs. -/
theorem of_placeholderId?_eq_some {t : Text} {n : Nat} (h : placeholderId? t = some n) :
    ∃ inner, t = mark :: inner ++ [mark] ∧ ∀ c ∈ inner, isWordChar c = true ∨ c = '+' := by
  rw [placeholderId?, Option.bind_eq_some_iff] at h
  obtain ⟨inner', hstart, h⟩ := h
  rw [Option.bind_eq_some_iff] at h
  obtain ⟨inner, hend, h⟩ := h
  refine ⟨inner, ?_, ?_⟩
  · rw [Text.dropStart?_eq_some hstart, dropEnd?_eq_some hend]
    rfl
  · rw [readIndex?, Option.filter_eq_some_iff, Text.readNat?] at h
    have hread := h.1
    split at hread
    · rename_i hall
      intro c hc
      cases hplus : Text.dropStart? ['+'] inner with
      | none =>
        rw [hplus, Option.getD_none] at hall
        exact .inl (isWordChar_of_isDigitOf (List.all_eq_true.1 hall.2 c hc))
      | some digits =>
        rw [hplus, Option.getD_some] at hall
        rw [Text.dropStart?_eq_some hplus, List.singleton_append] at hc
        rcases List.mem_cons.1 hc with rfl | hc
        · exact .inr rfl
        · exact .inl (isWordChar_of_isDigitOf (List.all_eq_true.1 hall.2 c hc))
    · cases hread

variable {ls : Literals} {s t : Text} {ts us : List Token}

/-- What stands between the marks of a piece that is a token. -/
theorem Piece.of_placeholder_token {tok : Token} (h : (Piece.placeholder t).token ls = .ok tok) :
    ∃ inner, t = mark :: inner ++ [mark] ∧ ∀ c ∈ inner, isWordChar c = true ∨ c = '+' := by
  simp only [Piece.token] at h
  split at h
  · rename_i hlookup
    rw [Option.bind_eq_some_iff] at hlookup
    obtain ⟨raw, hraw, -⟩ := hlookup
    rw [Literals.lookup?, Option.bind_eq_some_iff] at hraw
    obtain ⟨n, hn, -⟩ := hraw
    exact of_placeholderId?_eq_some hn
  · cases h

/-- A piece of a text with tokens is a token. -/
theorem exists_token_of_mem (h : tokens ls t = .ok ts) {p : Piece} (hp : p ∈ piecesOf t) :
    ∃ tok ∈ ts, p.token ls = .ok tok :=
  exists_of_mem_right (mapM_eq_ok.1 h).flip hp

/-- A text with tokens leaves no placeholder open. -/
theorem shut_of_tokens (h : tokens ls t = .ok ts) : Shut t := by
  intro p hp
  obtain ⟨tok, -, htok⟩ := exists_token_of_mem h hp
  cases p with
  | placeholder text =>
    obtain ⟨inner, rfl, -⟩ := Piece.of_placeholder_token htok
    simp [Piece.isClosed]
  | _ => rfl

/-- The tokens of texts that are apart are those of each. -/
theorem tokens_append (hshut : Shut s) (h : Apart s t) :
    tokens ls (s ++ t) = tokens ls s >>= fun ts => (ts ++ ·) <$> tokens ls t := by
  simp only [tokens, piecesOf_append hshut h, List.mapM_append, map_eq_pure_bind]

theorem tokens_append_eq_ok (hshut : Shut s) (h : Apart s t) :
    tokens ls (s ++ t) = .ok us ↔ ∃ front back, us = front ++ back ∧ tokens ls s = .ok front ∧
    tokens ls t = .ok back := by
  rw [tokens_append hshut h, bind_eq_ok]
  constructor
  · rintro ⟨front, hfront, hus⟩
    cases hback : tokens ls t with
    | error => rw [hback] at hus; cases hus
    | ok back =>
      rw [hback] at hus
      exact ⟨front, back, (Except.ok.inj hus).symm, hfront, rfl⟩
  · rintro ⟨front, back, rfl, hfront, hback⟩
    exact ⟨front, hfront, by rw [hback]; rfl⟩

theorem mem_throughMark_append {inner : Text} {c : Char} (hinner : mark ∉ inner) (hc : c ≠ mark)
    (t : Text) :
    c ∈ Text.throughMark (inner ++ c :: t) := by
  have hne : ∀ d ∈ inner ++ [c], (d != mark) = true := by
    simp only [List.mem_append, List.mem_singleton, bne_iff_ne]
    rintro d (hd | rfl) rfl
    · exact hinner hd
    · exact hc rfl
  rw [List.append_cons, Text.throughMark, List.takeWhile_append_of_pos hne]
  simp

/-- The tokens of a text, one piece at a time. -/
theorem tokens_cons_eq_ok {c : Char} {rest more : Text} {p : Piece} (hsep : isSeparator c = false)
    (hpiece : piece c rest = (p, more)) :
    tokens ls (c :: rest) = .ok ts ↔ ∃ tok us, ts = tok :: us ∧ p.token ls = .ok tok ∧
    tokens ls more = .ok us := by
  rw [tokens, piecesOf, hsep, hpiece, if_neg Bool.false_ne_true, mapM_eq_ok,
    List.forall₂_cons_left_iff]
  simp only [← mapM_eq_ok]
  constructor
  · rintro ⟨tok, us, htok, hus, rfl⟩
    exact ⟨tok, us, rfl, htok, hus⟩
  · rintro ⟨tok, us, rfl, htok, hus⟩
    exact ⟨tok, us, htok, hus, rfl⟩

/-- No separator starts a token. -/
theorem CutOff.not_isSeparator {c : Char} {rest more : Text} {p : Piece} {tok : Token}
    (h : CutOff (c :: rest) p more) (htok : p.token ls = .ok tok) : isSeparator c = false := by
  by_contra hsep
  simp only [isSeparator, Bool.not_eq_false, Bool.or_eq_true, beq_iff_eq] at hsep
  have hunknown : piece c rest = (.unknown c, rest) := by
    rcases hsep with (((rfl | rfl) | rfl) | rfl) | rfl <;> rfl
  obtain ⟨rfl, -⟩ := Prod.mk.inj (hunknown.symm.trans h.piece_eq)
  cases htok

/-- The tokens of a text, when the first is known. -/
theorem CutOff.tokens_eq_ok {more : Text} {p : Piece} {tok : Token} (h : CutOff t p more)
    (htok : p.token ls = .ok tok) :
    tokens ls t = .ok ts ↔ ∃ us, ts = tok :: us ∧ tokens ls more = .ok us := by
  obtain ⟨c, rest, rfl⟩ := h.exists_cons
  rw [tokens_cons_eq_ok (h.not_isSeparator htok) h.piece_eq]
  constructor
  · rintro ⟨tok', us, rfl, htok', hus⟩
    obtain rfl := Except.ok.inj (htok.symm.trans htok')
    exact ⟨us, rfl, hus⟩
  · rintro ⟨us, rfl, hus⟩
    exact ⟨tok, us, rfl, htok, hus⟩

/-- No placeholder that is a token goes over a parenthesis. -/
theorem shut_of_tokens_leftParen (h : tokens ls (s ++ '(' :: t) = .ok us) : Shut s := by
  by_contra hopen
  obtain ⟨inner, hinner, hp⟩ := exists_open_placeholder hopen (apart_leftParen s t)
  obtain ⟨tok, -, htok⟩ := exists_token_of_mem h hp
  obtain ⟨inner', heq, hword⟩ := Piece.of_placeholder_token htok
  have hmem : '(' ∈ _ := mem_throughMark_append hinner (by decide) t
  rw [(List.cons.inj heq).2] at hmem
  rcases List.mem_append.1 hmem with hmem | hmem
  · exact absurd (hword _ hmem) (by decide)
  · exact absurd (List.mem_singleton.1 hmem) (by decide)

/-! ### Numbers and truth values -/

theorem tokens_nil : tokens ls [] = .ok [] := by
  rw [tokens, piecesOf]
  rfl

theorem tokens_separator {c : Char} (hsep : isSeparator c = true) (t : Text) :
    tokens ls (c :: t) = tokens ls t := by
  rw [tokens, piecesOf, if_pos hsep]
  rfl

/-- Nothing that digits go on with: no digit, no point, and no sign of base 16. -/
def endsDigits (c : Char) : Bool := !c.isDigit && c != '.' && c != 'x' && c != 'X'

theorem endsDigits_eq_true {c : Char} :
    endsDigits c = true ↔ c.isDigit = false ∧ c ≠ '.' ∧ c ≠ 'x' ∧ c ≠ 'X' := by
  simp [endsDigits, and_assoc]

-- The modulus is a variable in the next two: arithmetic on its literal exceeds the depth of
-- recursion.
theorem fitsInt_bmod {m : Nat} (hm : m = 0x100000000) (n : Int) :
    fitsInt (Int.bmod n m) = true := by
  have hle := Int.le_bmod (x := n) (m := m) (by omega)
  have hlt := Int.bmod_lt (x := n) (m := m) (by omega)
  simp only [fitsInt, Bool.and_eq_true, decide_eq_true_eq]
  omega

theorem bmod_eq_self {m n : Nat} (hm : m = 0x100000000) (hn : n < 0x80000000) :
    Int.bmod n m = n := by
  rw [Int.bmod_eq_of_le] <;> omega

theorem fitsInt_wrapInt (n : Nat) : fitsInt (wrapInt n) = true := fitsInt_bmod rfl n

theorem wrapInt_eq_self {n : Nat} (h : n < 0x80000000) : wrapInt n = n := bmod_eq_self rfl h

/-- The digits of a number of 32 bits are read as its signed value. -/
theorem readInt_ofNat {n : Nat} (h : n < 0x100000000) :
    readInt 10 (Text.ofNat n) = .ok (wrapInt n) := by
  have hlength : (Text.ofNat n).length ≤ 12 :=
    (Nat.length_toDigits_le_iff (by decide) (by decide)).2 (by omega)
  rw [readInt, List.take_of_length_le hlength, Literal.readNat?_ofNat]
  dsimp only
  rw [if_neg (by omega)]

/-- No zero stands before the digits of a number. -/
theorem head?_ofNat_ne_zero {n : Nat} (h : 0 < n) : (Text.ofNat n).head? ≠ some '0' := by
  induction n using Nat.strong_induction_on with
  | h n ih =>
    have hfirst : ∀ n < 10, 0 < n → Nat.digitChar n ≠ '0' := by decide
    rw [Text.ofNat, Nat.toDigits_eq_if (by decide)]
    split
    · rename_i hlt
      simpa using hfirst n hlt h
    · rw [List.head?_append_of_ne_nil _ Nat.toDigits_ne_nil]
      exact ih (n / 10) (by omega) (by omega)

theorem baseOf_ofNat (n : Nat) : baseOf (Text.ofNat n) = 10 := by
  rw [baseOf, if_neg]
  rintro ⟨hlength, hhead⟩
  refine head?_ofNat_ne_zero (Nat.pos_of_ne_zero ?_) hhead
  rintro rfl
  exact absurd hlength (by decide)

end ScriptMinifier.Constant
