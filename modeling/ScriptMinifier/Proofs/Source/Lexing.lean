import ScriptMinifier.Proofs.Source.Annotation

/-! Lexemes against roles.

Each lexeme of a script is a run of characters whose roles its kind tells
(`Lexeme.annotated`), and reading the script character by character gives those runs one
after the other (`annotate_eq_annotatedAll`). The list of lexemes is `Lexed`: words do not touch,
what is neither word nor enclosure is a character between words, and only the last lexeme is
unclosed. So a word of the code is a word among the lexemes (`Lexed.word_mem`). -/
namespace ScriptMinifier.Source

open Text (isQuote isWordChar isOtherChar closeQuote? cutFirst? extendCut_eq_some mark StartsNoWord
  not_isWordChar_of_isOtherChar)

/-! ### The roles of a lexeme -/

/-- The role of the character that starts an enclosure, and of those after it. -/
def Enclosure.roles : Enclosure → Role × Role
  | lineComment => (.comment, .comment)
  | blockComment => (.gap, .comment)
  | string => (.quote, .literal)
  | rawcode => (.quote, .literal)

/-- The characters of an enclosure with their roles. -/
def Enclosure.annotated (kind : Enclosure) : Text → Annotated
  | [] => []
  | c :: rest => (c, kind.roles.1) :: rest.map fun d => (d, kind.roles.2)

/-- The characters of a lexeme with their roles. -/
def Lexeme.annotated : Lexeme → Annotated
  | word t => plain t
  | char c => plain [c]
  | enclosed kind t => kind.annotated t
  | unclosed kind t => kind.annotated t

/-- The characters of lexemes with their roles. -/
def annotatedAll (ls : List Lexeme) : Annotated := ls.flatMap Lexeme.annotated

@[simp] theorem annotatedAll_nil : annotatedAll [] = [] := rfl

@[simp] theorem annotatedAll_cons (l : Lexeme) (ls : List Lexeme) :
    annotatedAll (l :: ls) = l.annotated ++ annotatedAll ls := List.flatMap_cons

@[simp] theorem annotatedAll_append (ls ls' : List Lexeme) :
    annotatedAll (ls ++ ls') = annotatedAll ls ++ annotatedAll ls' := List.flatMap_append

/-! ### Reading to the end of an enclosure -/

theorem annotate_lineComment (t : Text) :
    annotate .lineComment t =
      ((t.takeWhile (· != '\n')).map fun c => (c, .comment)) ++ annotate .code
      (t.dropWhile (· != '\n')) := by
  induction t with
  | nil => rfl
  | cons c rest ih =>
    by_cases hc : c = '\n'
    · subst hc
      simp [annotate, Mode.read, isQuote]
    · simp [annotate, Mode.read, hc, ih]

theorem dropStart?_close (c : Char) (rest : Text) :
    Text.dropStart? "*/".toList (c :: rest) =
      if c = '*' ∧ rest.head? = some '/' then some (rest.drop 1) else none := by
  have hstarts : "*/".toList.isPrefixOf (c :: rest) = true ↔ c = '*' ∧ rest.head? = some '/' := by
    cases rest with
    | nil => simp
    | cons d tail => simp [@eq_comm _ '*', @eq_comm _ '/']
  by_cases h : c = '*' ∧ rest.head? = some '/'
  · rw [if_pos h, Text.dropStart?, if_pos (hstarts.2 h)]
    rfl
  · rw [if_neg h, Text.dropStart?, if_neg (mt hstarts.1 h)]

theorem annotate_closingSlash {rest : Text} (h : rest.head? = some '/') :
    annotate .closingSlash rest = ('/', .comment) :: annotate .code (rest.drop 1) := by
  cases rest with
  | nil => cases h
  | cons c tail =>
    rw [List.head?_cons, Option.some.injEq] at h
    rw [h]
    rfl

theorem annotate_blockComment_of_some {t inside after : Text}
    (h : cutFirst? "*/".toList t = some (inside, after)) :
    annotate .blockComment t = ((inside ++ "*/".toList).map fun c => (c, .comment)) ++
      annotate .code after := by
  induction t generalizing inside with
  | nil => cases h
  | cons c rest ih =>
    rw [cutFirst?, dropStart?_close] at h
    by_cases hc : c = '*' ∧ rest.head? = some '/'
    · rw [if_pos hc] at h
      simp only [Option.some.injEq, Prod.mk.injEq] at h
      rw [← h.1, ← h.2, annotate, Mode.read, if_pos hc, annotate_closingSlash hc.2, hc.1]
      rfl
    · rw [if_neg hc] at h
      obtain ⟨tail, rfl, hcut⟩ := extendCut_eq_some.1 h
      rw [annotate, Mode.read, if_neg hc, ih hcut]
      rfl

theorem annotate_blockComment_of_none {t : Text} (h : cutFirst? "*/".toList t = none) :
    annotate .blockComment t = t.map fun c => (c, .comment) := by
  induction t with
  | nil => rfl
  | cons c rest ih =>
    rw [cutFirst?, dropStart?_close] at h
    by_cases hc : c = '*' ∧ rest.head? = some '/'
    · rw [if_pos hc] at h
      cases h
    · rw [if_neg hc] at h
      rw [annotate, Mode.read, if_neg hc, ih (Option.map_eq_none_iff.1 h)]
      rfl

theorem annotate_literal_of_some {quote : Char} (hq : quote ≠ '\\') {t inside after : Text}
    (h : closeQuote? quote t = some (inside, after)) :
    annotate (.literal quote) t = (inside.map fun c => (c, .literal)) ++ annotate .code after := by
  fun_induction closeQuote? quote t generalizing inside with
  | case1 => cases h
  | case2 c rest ih =>
    obtain ⟨_, rfl, h'⟩ := extendCut_eq_some.1 h
    obtain ⟨tail, rfl, hclose⟩ := extendCut_eq_some.1 h'
    rw [annotate, annotate]
    simp [Mode.read, ih hclose]
  | case3 rest =>
    simp only [Option.some.injEq, Prod.mk.injEq] at h
    rw [← h.1, ← h.2, annotate, Mode.read, if_neg hq, if_pos rfl]
    rfl
  | case4 c rest hescape hc ih =>
    obtain ⟨tail, rfl, hclose⟩ := extendCut_eq_some.1 h
    have hslash : c ≠ '\\' := by
      rintro rfl
      cases rest with
      | nil => cases hclose
      | cons d more => exact hescape d more rfl rfl
    rw [annotate, Mode.read, if_neg hslash, if_neg hc, ih hclose]
    rfl

theorem annotate_literal_of_none {quote : Char} {t : Text} (h : closeQuote? quote t = none) :
    annotate (.literal quote) t = t.map fun c => (c, .literal) := by
  fun_induction closeQuote? quote t with
  | case1 => rfl
  | case2 c rest ih =>
    rw [annotate, annotate]
    simp [Mode.read, ih (Option.map_eq_none_iff.1 (Option.map_eq_none_iff.1 h))]
  | case3 rest => cases h
  | case4 c rest hescape hc ih =>
    rw [List.map_cons, ← ih (Option.map_eq_none_iff.1 h)]
    by_cases hslash : c = '\\'
    · cases rest with
      | nil => simp [annotate, Mode.read, hslash]
      | cons d more => exact absurd rfl (hescape d more hslash)
    · simp [annotate, Mode.read, hslash, hc]

/-! ### Reading one lexeme -/

theorem isQuote_of_isWordChar {c : Char} (h : isWordChar c = true) : isQuote c = false := by
  rw [← Bool.not_eq_true]
  intro hq
  rw [isQuote, Bool.or_eq_true, beq_iff_eq, beq_iff_eq] at hq
  rcases hq with rfl | rfl <;> cases h

theorem annotate_of_isWordChar {c : Char} (h : isWordChar c = true) (rest : Text) :
    annotate .code (c :: rest) = (c, .code) :: annotate .code rest := by
  have hslash : c ≠ '/' := by
    rintro rfl
    cases h
  simp [annotate, Mode.read, hslash, isQuote_of_isWordChar h]

theorem annotate_word {w : Text} (h : ∀ c ∈ w, isWordChar c = true) (t : Text) :
    annotate .code (w ++ t) = plain w ++ annotate .code t := by
  induction w with
  | nil => rfl
  | cons c rest ih =>
    rw [List.cons_append, annotate_of_isWordChar (h c List.mem_cons_self),
      ih fun d hd => h d (List.mem_cons_of_mem c hd)]
    rfl

theorem annotate_lineComment_lexeme (rest : Text) :
    annotate .code ('/' :: '/' :: rest) =
      (lineComment ('/' :: '/' :: rest)).1.annotated ++ annotate .code
      (lineComment ('/' :: '/' :: rest)).2 := by
  have hread : annotate .code ('/' :: '/' :: rest) =
      Enclosure.lineComment.annotated (('/' :: '/' :: rest).takeWhile (· != '\n')) ++
        annotate .code (('/' :: '/' :: rest).dropWhile (· != '\n')) := by
    simp [annotate, Mode.read, annotate_lineComment, Enclosure.annotated, Enclosure.roles]
  rw [hread, lineComment]
  split
  · rename_i hd
    rw [hd]
    rfl
  · rfl

theorem annotate_blockComment_lexeme (rest : Text) :
    annotate .code ('/' :: '*' :: rest) =
      (blockComment ('/' :: '*' :: rest)).1.annotated ++ annotate .code
      (blockComment ('/' :: '*' :: rest)).2 := by
  have hread : annotate .code ('/' :: '*' :: rest) =
      ('/', .gap) :: ('*', .comment) :: annotate .blockComment rest := by
    simp [annotate, Mode.read]
  rw [hread, blockComment]
  split
  · rename_i inside after hcut
    rw [annotate_blockComment_of_some (t := rest) hcut]
    simp [Lexeme.annotated, Enclosure.annotated, Enclosure.roles]
  · rename_i hcut
    rw [annotate_blockComment_of_none (t := rest) hcut]
    simp [Lexeme.annotated, Enclosure.annotated, Enclosure.roles, annotate]

theorem roles_ofQuote (c : Char) : (Enclosure.ofQuote c).roles = (.quote, .literal) := by
  unfold Enclosure.ofQuote
  split <;> rfl

theorem annotate_literal_lexeme {c : Char} (hc : isQuote c = true) (rest : Text) :
    annotate .code (c :: rest) = (literal c rest).1.annotated ++ annotate .code
    (literal c rest).2 := by
  have hslash : c ≠ '/' ∧ c ≠ '\\' := by
    constructor <;> rintro rfl <;> cases hc
  have hread : annotate .code (c :: rest) = (c, .quote) :: annotate (.literal c) rest := by
    simp [annotate, Mode.read, hslash.1, hc]
  rw [hread, literal]
  split
  · rename_i inside after hclose
    rw [annotate_literal_of_some hslash.2 hclose]
    simp [Lexeme.annotated, Enclosure.annotated, roles_ofQuote]
  · rename_i hclose
    rw [annotate_literal_of_none hclose]
    simp [Lexeme.annotated, Enclosure.annotated, roles_ofQuote, annotate]

/-- Reading on to the end of the first lexeme gives its characters their roles and leaves
code to be read. -/
theorem annotate_lexeme (c : Char) (rest : Text) :
    annotate .code (c :: rest) = (lexeme c rest).1.annotated ++ annotate .code
    (lexeme c rest).2 := by
  unfold lexeme
  split
  · rename_i h
    obtain ⟨tail, rfl⟩ := List.head?_eq_some_iff.1 h.2
    rw [h.1]
    exact annotate_lineComment_lexeme tail
  · rename_i hline
    split
    · rename_i h
      obtain ⟨tail, rfl⟩ := List.head?_eq_some_iff.1 h.2
      rw [h.1]
      exact annotate_blockComment_lexeme tail
    · rename_i hblock
      split
      · rename_i hquote
        exact annotate_literal_lexeme hquote rest
      · rename_i hquote
        split
        · rename_i hword
          obtain ⟨hsplit, hrun⟩ := Text.exists_run hword rest
          rw [hsplit]
          exact annotate_word hrun _
        · rw [annotate, Mode.read, if_neg hline, if_neg hblock, if_neg hquote]
          rfl

/-- A script read character by character is its lexemes, one after the other. -/
theorem annotate_eq_annotatedAll (src : Text) :
    annotate .code src = annotatedAll (lexemes src) := by
  fun_induction lexemes src with
  | case1 => rfl
  | case2 c rest ih => rw [annotatedAll_cons, ← ih, annotate_lexeme]

/-! ### The first lexeme -/

/-- A literal ends in a quote. -/
def Enclosure.Ends (kind : Enclosure) (t : Text) : Prop :=
  kind.roles.1 = .quote → ∃ raw q, t = raw ++ [q] ∧ isQuote q = true

/-- What the first lexeme of a text can be, beside what follows it: a word does not run on,
and nothing follows what is never closed. -/
inductive Leads : Lexeme → Text → Prop
  | word {t after : Text} (hne : t ≠ []) (hword : ∀ c ∈ t, isWordChar c = true)
      (hnext : StartsNoWord after) : Leads (.word t) after
  | char {c : Char} {after : Text} (hc : isWordChar c = false) : Leads (.char c) after
  | enclosed {kind : Enclosure} {t after : Text} (hne : t ≠ []) (hends : kind.Ends t) :
      Leads (.enclosed kind t) after
  | unclosed {kind : Enclosure} {t : Text} (hne : t ≠ []) : Leads (.unclosed kind t) []

theorem leads_lineComment (rest : Text) :
    Leads (lineComment ('/' :: rest)).1 (lineComment ('/' :: rest)).2 := by
  have hne : ('/' :: rest).takeWhile (· != '\n') ≠ [] := by simp
  unfold lineComment
  split
  · exact .unclosed hne
  · exact .enclosed hne nofun

theorem leads_blockComment (rest : Text) :
    Leads (blockComment ('/' :: rest)).1 (blockComment ('/' :: rest)).2 := by
  unfold blockComment
  split
  · exact .enclosed (by simp) nofun
  · exact .unclosed (by simp)

theorem eq_append_of_closeQuote? {quote : Char} {t inside after : Text}
    (h : closeQuote? quote t = some (inside, after)) : ∃ raw, inside = raw ++ [quote] := by
  fun_induction closeQuote? quote t generalizing inside with
  | case1 => cases h
  | case2 c rest ih =>
    obtain ⟨_, rfl, h'⟩ := extendCut_eq_some.1 h
    obtain ⟨tail, rfl, hclose⟩ := extendCut_eq_some.1 h'
    obtain ⟨raw, rfl⟩ := ih hclose
    exact ⟨'\\' :: c :: raw, rfl⟩
  | case3 rest =>
    simp only [Option.some.injEq, Prod.mk.injEq] at h
    exact ⟨[], h.1.symm⟩
  | case4 c rest _ _ ih =>
    obtain ⟨tail, rfl, hclose⟩ := extendCut_eq_some.1 h
    obtain ⟨raw, rfl⟩ := ih hclose
    exact ⟨c :: raw, rfl⟩

theorem leads_literal {c : Char} (hc : isQuote c = true) (rest : Text) :
    Leads (literal c rest).1 (literal c rest).2 := by
  unfold literal
  split
  · rename_i inside after hclose
    obtain ⟨raw, rfl⟩ := eq_append_of_closeQuote? hclose
    exact .enclosed (by simp) fun _ => ⟨c :: raw, c, rfl, hc⟩
  · exact .unclosed (by simp)

theorem leads_lexeme (c : Char) (rest : Text) : Leads (lexeme c rest).1 (lexeme c rest).2 := by
  unfold lexeme
  split
  · rename_i h
    rw [h.1]
    exact leads_lineComment rest
  · split
    · rename_i h
      rw [h.1]
      exact leads_blockComment rest
    · split
      · rename_i hquote
        exact leads_literal hquote rest
      · split
        · rename_i hword
          exact .word (by simp) (Text.exists_run hword rest).2 (Text.startsNoWord_dropWhile rest)
        · rename_i hword
          exact .char (by simpa using hword)

/-- A word among the lexemes starts with a word character. -/
theorem lexemes_ne_word {t : Text} (h : StartsNoWord t) (u : Text) (more : List Lexeme) :
    lexemes t ≠ .word u :: more := by
  intro heq
  cases t with
  | nil => simp [lexemes] at heq
  | cons c rest =>
    rw [lexemes, List.cons.injEq] at heq
    have hlead := leads_lexeme c rest
    have htext := text_lexeme c rest
    rw [heq.1] at hlead htext
    cases hlead with
    | word hne hword hnext =>
      obtain ⟨d, tail, rfl⟩ := List.exists_cons_of_ne_nil hne
      have hd : isWordChar d = true := hword d List.mem_cons_self
      have hcd : d = c := (List.cons.inj htext).1
      rw [hcd, h c rest rfl] at hd
      cases hd

/-! ### Lists of lexemes -/

/-- What the lexemes of a script without marks are like: words do not touch, and only the
last lexeme is unclosed. -/
inductive Lexed : List Lexeme → Prop
  | nil : Lexed []
  | word {t : Text} {ls : List Lexeme} (hne : t ≠ []) (hword : ∀ c ∈ t, isWordChar c = true)
      (hnext : ∀ u more, ls ≠ .word u :: more) (rest : Lexed ls) : Lexed (.word t :: ls)
  | char {c : Char} {ls : List Lexeme} (hc : isOtherChar c = true) (rest : Lexed ls) :
      Lexed (.char c :: ls)
  | enclosed {kind : Enclosure} {t : Text} {ls : List Lexeme} (hne : t ≠ []) (hends : kind.Ends t)
      (rest : Lexed ls) : Lexed (.enclosed kind t :: ls)
  | unclosed {kind : Enclosure} {t : Text} {ls : List Lexeme} (hne : t ≠ []) (hlast : ls = []) :
      Lexed (.unclosed kind t :: ls)

theorem lexed_lexemes {src : Text} (h : mark ∉ src) : Lexed (lexemes src) := by
  fun_induction lexemes src with
  | case1 => exact .nil
  | case2 c rest ih =>
    rw [← text_lexeme c rest, List.mem_append, not_or] at h
    have hrest := ih h.2
    have hlead := leads_lexeme c rest
    generalize lexeme c rest = first at h hrest hlead ⊢
    obtain ⟨l, after⟩ := first
    cases hlead with
    | word hne hword hnext => exact .word hne hword (lexemes_ne_word hnext) hrest
    | @char d _ hd =>
      have hmark : d ≠ mark := fun heq => h.1 (by simp [Lexeme.text, heq])
      exact .char (by simp [isOtherChar, hd, hmark]) hrest
    | enclosed hne hends => exact .enclosed hne hends hrest
    | unclosed hne => exact .unclosed hne (by rw [lexemes])

namespace Lexed

variable {ls ls' : List Lexeme}

theorem tail {l : Lexeme} (h : Lexed (l :: ls)) : Lexed ls := by
  cases h with
  | word _ _ _ rest => exact rest
  | char _ rest => exact rest
  | enclosed _ _ rest => exact rest
  | unclosed _ hlast =>
    rw [hlast]
    exact .nil

theorem left (h : Lexed (ls ++ ls')) : Lexed ls := by
  induction ls with
  | nil => exact .nil
  | cons l rest ih =>
    have hrest := ih h.tail
    cases h with
    | word hne hword hnext _ =>
      refine .word hne hword ?_ hrest
      rintro u more rfl
      exact hnext u (more ++ ls') rfl
    | char hc _ => exact .char hc hrest
    | enclosed hne hends _ => exact .enclosed hne hends hrest
    | unclosed hne hlast => exact .unclosed hne (List.append_eq_nil_iff.1 hlast).1

theorem right (h : Lexed (ls ++ ls')) : Lexed ls' := by
  induction ls with
  | nil => exact h
  | cons l rest ih => exact ih h.tail

end Lexed

/-! ### The code of lexemes -/

/-- No character of an enclosure is code. -/
theorem visible_roles (kind : Enclosure) (c : Char) :
    kind.roles.1.visible c = ' ' ∧ kind.roles.2.visible c = ' ' := by
  cases kind <;> exact ⟨rfl, rfl⟩

theorem mem_coded_enclosure {kind : Enclosure} {t : Text} {c : Char}
    (h : c ∈ coded (kind.annotated t)) :
    c = ' ' := by
  cases t with
  | nil => cases h
  | cons d rest =>
    rw [Enclosure.annotated, coded, List.map_cons, List.map_map, List.mem_cons] at h
    rcases h with hfirst | hrest
    · rw [hfirst]
      exact (visible_roles kind d).1
    · obtain ⟨e, -, rfl⟩ := List.mem_map.1 hrest
      exact (visible_roles kind e).2

theorem startsNoWord_enclosure {kind : Enclosure} {t : Text} (hne : t ≠ []) (s : Text) :
    StartsNoWord (coded (kind.annotated t) ++ s) := by
  obtain ⟨c, rest, rfl⟩ := List.exists_cons_of_ne_nil hne
  refine Text.StartsNoWord.append (by simp [coded, Enclosure.annotated]) ?_ s
  intro d tail hd
  have hblank : d = ' ' := mem_coded_enclosure (hd ▸ List.mem_cons_self)
  rw [hblank]
  decide

/-- The code of lexemes starts with a word only where they do. -/
theorem Lexed.startsNoWord {ls : List Lexeme} (h : Lexed ls)
    (hnext : ∀ u more, ls ≠ .word u :: more) :
    StartsNoWord (coded (annotatedAll ls)) := by
  cases h with
  | nil => nofun
  | @word t ls => exact absurd rfl (hnext t ls)
  | @char c ls hc =>
    intro d tail hd
    have hcd : c = d := (List.cons.inj hd).1
    rw [← hcd]
    exact not_isWordChar_of_isOtherChar hc
  | enclosed hne =>
    rw [annotatedAll_cons, coded_append]
    exact startsNoWord_enclosure hne _
  | unclosed hne =>
    rw [annotatedAll_cons, coded_append]
    exact startsNoWord_enclosure hne _

/-- No character of an enclosure is part of a word of the code. -/
theorem words_enclosure (kind : Enclosure) (t s : Text) :
    Text.words (coded (kind.annotated t) ++ s) = Text.words s :=
  Text.words_others (fun c hc => by rw [mem_coded_enclosure hc]; decide) s

/-- A word of the code is a word among the lexemes. -/
theorem Lexed.word_mem {ls : List Lexeme} (h : Lexed ls) {w : Text}
    (hw : w ∈ Text.words (coded (annotatedAll ls))) : .word w ∈ ls := by
  induction h with
  | nil =>
    rw [show coded (annotatedAll []) = [] from rfl, Text.words_nil] at hw
    cases hw
  | @word t ls hne hword hnext rest ih =>
    have hcoded : coded (annotatedAll (.word t :: ls)) = t ++ coded (annotatedAll ls) := by
      simp [Lexeme.annotated]
    rw [hcoded, Text.words_word hne hword (rest.startsNoWord hnext)] at hw
    rcases List.mem_cons.1 hw with rfl | hw
    · exact List.mem_cons_self
    · exact List.mem_cons_of_mem _ (ih hw)
  | @char c ls hc rest ih =>
    have hcoded : coded (annotatedAll (.char c :: ls)) = c :: coded (annotatedAll ls) := by
      simp [Lexeme.annotated]
    rw [hcoded, Text.words_other hc] at hw
    exact List.mem_cons_of_mem _ (ih hw)
  | @enclosed kind t ls hne hends rest ih =>
    rw [annotatedAll_cons, coded_append] at hw
    rw [show Lexeme.annotated (.enclosed kind t) = kind.annotated t from rfl, words_enclosure] at hw
    exact List.mem_cons_of_mem _ (ih hw)
  | @unclosed kind t ls hne hlast =>
    rw [hlast, annotatedAll_cons, coded_append] at hw
    rw [show Lexeme.annotated (.unclosed kind t) = kind.annotated t from rfl, words_enclosure] at hw
    rw [show coded (annotatedAll []) = [] from rfl, Text.words_nil] at hw
    cases hw

/-- A character of the code that is no space is part of a word or stands by itself. -/
theorem Lexed.mem_coded {ls : List Lexeme} (h : Lexed ls) {c : Char}
    (hc : c ∈ coded (annotatedAll ls)) :
    c = ' ' ∨ isWordChar c = true ∨ (.char c ∈ ls ∧ isOtherChar c = true) := by
  induction ls with
  | nil => cases hc
  | cons l rest ih =>
    rw [annotatedAll_cons, coded_append, List.mem_append] at hc
    rcases hc with hc | hc
    · cases h with
      | word _ hword =>
        rw [Lexeme.annotated, coded_plain] at hc
        exact .inr (.inl (hword c hc))
      | @char d _ hd =>
        rw [Lexeme.annotated, coded_plain, List.mem_singleton] at hc
        rw [hc]
        exact .inr (.inr ⟨List.mem_cons_self, hd⟩)
      | enclosed => exact .inl (mem_coded_enclosure hc)
      | unclosed => exact .inl (mem_coded_enclosure hc)
    · rcases ih h.tail hc with hblank | hword | ⟨hmem, hother⟩
      · exact .inl hblank
      · exact .inr (.inl hword)
      · exact .inr (.inr ⟨List.mem_cons_of_mem l hmem, hother⟩)

end ScriptMinifier.Source
