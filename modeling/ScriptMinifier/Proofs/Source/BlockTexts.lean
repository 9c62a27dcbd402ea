import ScriptMinifier.Proofs.Literal.SealedProgram
import ScriptMinifier.Proofs.Literal.Wordwise

/-! What stands in the texts of blocks.

The text of a block holds no quote, since every quote of the script opens a literal or stands
inside one, and no closing word of its own, since that word would have closed it (`Bare`). For
the second, words of the text must be words of the script: a line comment leaves nothing, but a
newline follows it. A literal of the table is closed by its own quote whatever follows
(`ClosedLiteral`). -/
namespace ScriptMinifier.Source

open Text (isQuote isWordChar isOtherChar closeQuote? extendCut_eq_some mark StartsNoWord words)
open Literal (placeholder)

/-! ### Literals -/

/-- A literal that ends where it ends whatever follows it. -/
def ClosedLiteral (raw : Text) : Prop :=
  ∃ quote inside, raw = quote :: inside ∧ isQuote quote = true ∧
    ∀ t, closeQuote? quote (inside ++ t) = some (inside, t)

theorem closeQuote?_append {quote : Char} {t inside after : Text} (hquote : quote ≠ '\\')
    (h : closeQuote? quote t = some (inside, after)) (u : Text) :
    closeQuote? quote (inside ++ u) = some (inside, u) := by
  fun_induction closeQuote? quote t generalizing inside with
  | case1 => cases h
  | case2 c rest ih =>
    obtain ⟨_, rfl, h'⟩ := extendCut_eq_some.1 h
    obtain ⟨tail, rfl, hclose⟩ := extendCut_eq_some.1 h'
    rw [List.cons_append, List.cons_append, closeQuote?, ih hclose]
    rfl
  | case3 rest =>
    simp only [Option.some.injEq, Prod.mk.injEq] at h
    rw [← h.1]
    simp [closeQuote?, hquote]
  | case4 c rest hescape hc ih =>
    obtain ⟨tail, rfl, hclose⟩ := extendCut_eq_some.1 h
    have hslash : c ≠ '\\' := by
      rintro rfl
      cases rest with
      | nil => cases hclose
      | cons d more => exact hescape d more rfl rfl
    have hstep :
        ∀ v : Text, closeQuote? quote (c :: v) = Text.extendCut c (closeQuote? quote v) := by
      intro v
      rw [closeQuote?, if_neg hc]
      exact fun _ _ heq => absurd heq hslash
    rw [List.cons_append, hstep, ih hclose]
    rfl

/-! ### Lexemes -/

/-- A character by itself is no quote, and a literal is closed by its own quote. -/
def Lexeme.Genuine : Lexeme → Prop
  | char c => isQuote c = false
  | l => ∀ raw ∈ l.literals, ClosedLiteral raw

theorem genuine_literal {c : Char} (hc : isQuote c = true) (rest : Text) :
    (literal c rest).1.Genuine := by
  have hslash : c ≠ '\\' := by
    rintro rfl
    cases hc
  unfold literal
  split
  · rename_i inside after hclose
    have hclosed : ClosedLiteral (c :: inside) :=
      ⟨c, inside, rfl, hc, closeQuote?_append hslash hclose⟩
    unfold Enclosure.ofQuote
    split <;> simpa [Lexeme.Genuine, Lexeme.literals] using hclosed
  · simp [Lexeme.Genuine, Lexeme.literals]

theorem genuine_lexeme (c : Char) (rest : Text) : (lexeme c rest).1.Genuine := by
  unfold lexeme
  split
  · unfold lineComment
    split <;> simp [Lexeme.Genuine, Lexeme.literals]
  · split
    · unfold blockComment
      split <;> simp [Lexeme.Genuine, Lexeme.literals]
    · split
      · exact genuine_literal ‹_› rest
      · rename_i hquote
        split
        · simp [Lexeme.Genuine, Lexeme.literals]
        · simpa [Lexeme.Genuine] using hquote

theorem genuine_lexemes (src : Text) : ∀ l ∈ lexemes src, l.Genuine := by
  fun_induction lexemes src with
  | case1 =>
    intro l hl
    cases hl
  | case2 c rest ih => exact List.forall_mem_cons.2 ⟨genuine_lexeme c rest, ih⟩

/-- After every line comment that is closed comes a newline. -/
def Parted : List Lexeme → Prop
  | [] => True
  | l :: rest => (∀ t, l = .enclosed .lineComment t → rest.head? = some (.char '\n')) ∧ Parted rest

theorem lexemes_newline (rest : Text) : lexemes ('\n' :: rest) = .char '\n' :: lexemes rest := by
  rw [lexemes]
  rfl

theorem starts_newline_of_lineComment {c : Char} {rest t : Text}
    (h : (lexeme c rest).1 = .enclosed .lineComment t) : (lexeme c rest).2.head? = some '\n' := by
  have hline : ∀ u : Text, (lineComment u).1 = .enclosed .lineComment t →
      (lineComment u).2.head? = some '\n' := by
    intro u hu
    unfold lineComment at hu ⊢
    split at hu
    · cases hu
    · rename_i hne
      have hhead := List.head?_dropWhile_not (· != '\n') u
      cases hrest : u.dropWhile (· != '\n') with
      | nil => exact absurd hrest hne
      | cons d more =>
        rw [hrest] at hhead
        simpa using hhead
  unfold lexeme at h ⊢
  split
  · rename_i hslash
    rw [if_pos hslash] at h
    exact hline _ h
  · rename_i hslash
    rw [if_neg hslash] at h
    split at h
    · unfold blockComment at h
      split at h <;> cases h
    · split at h
      · unfold literal Enclosure.ofQuote at h
        split at h
        · split at h <;> cases h
        · cases h
      · split at h <;> cases h

theorem parted_lexemes (src : Text) : Parted (lexemes src) := by
  fun_induction lexemes src with
  | case1 => exact trivial
  | case2 c rest ih =>
    refine ⟨fun t ht => ?_, ih⟩
    obtain ⟨more, hmore⟩ := List.head?_eq_some_iff.1 (starts_newline_of_lineComment ht)
    rw [hmore, lexemes_newline]
    rfl

theorem Parted.right {ls ls' : List Lexeme} (h : Parted (ls ++ ls')) : Parted ls' := by
  induction ls with
  | nil => exact h
  | cons l rest ih => exact ih h.2

theorem Parted.left {ls ls' : List Lexeme} {l : Lexeme} (hl : l ≠ .char '\n')
    (h : Parted (ls ++ l :: ls')) :
    Parted ls := by
  induction ls with
  | nil => exact trivial
  | cons first rest ih =>
    refine ⟨fun t ht => ?_, ih h.2⟩
    have hnext := h.1 t ht
    cases rest with
    | nil => exact absurd (Option.some.inj hnext) hl
    | cons next more => exact hnext

/-! ### Collecting -/

theorem startsNoWord_collectBody {lits : Literals} {ls : List Lexeme} (h : Lexed ls)
    (hparted : Parted ls)
    (hclosed : ∀ kind t, .unclosed kind t ∉ ls) (hnext : ∀ u more, ls ≠ .word u :: more) :
    StartsNoWord (collectBody lits ls).1 := by
  have hfirst : ∀ {c : Char} {t : Text}, isWordChar c = false → StartsNoWord (c :: t) := by
    rintro c t hc d rest hd
    rw [← (List.cons.inj hd).1]
    exact hc
  cases h with
  | nil => nofun
  | word => exact absurd rfl (hnext _ _)
  | char hc => exact hfirst (Text.not_isWordChar_of_isOtherChar hc)
  | @enclosed kind t ls _ _ rest =>
    cases kind with
    | lineComment =>
      obtain ⟨more, rfl⟩ := List.head?_eq_some_iff.1 (hparted.1 t rfl)
      exact hfirst (c := '\n') (by decide)
    | blockComment => exact hfirst (c := ' ') (by decide)
    | string => exact hfirst Text.not_isWordChar_mark
    | rawcode => exact hfirst Text.not_isWordChar_mark
  | unclosed => exact absurd List.mem_cons_self (hclosed _ _)

/-- The words that a body leaves are words of the script. -/
theorem word_mem_of_collectBody {lits : Literals} {ls : List Lexeme} (h : Lexed ls)
    (hparted : Parted ls)
    (hclosed : ∀ kind t, .unclosed kind t ∉ ls) {w : Text}
    (hw : w ∈ words (collectBody lits ls).1) :
    .word w ∈ ls := by
  induction ls generalizing lits with
  | nil =>
    rw [show (collectBody lits []).1 = [] from rfl, Text.words_nil] at hw
    cases hw
  | cons l rest ih =>
    have hlater : ∀ {lits : Literals}, w ∈ words (collectBody lits rest).1 →
        .word w ∈ l :: rest := fun hmem =>
      List.mem_cons_of_mem l
        (ih h.tail hparted.2 (fun kind t hmem => hclosed kind t (List.mem_cons_of_mem l hmem)) hmem)
    rw [collectBody_cons] at hw
    cases h with
    | @word t _ hne hword hnext hrest =>
      have hstarts : StartsNoWord (collectBody lits rest).1 :=
        startsNoWord_collectBody hrest hparted.2
        (fun kind t hmem => hclosed kind t (List.mem_cons_of_mem _ hmem)) hnext
      rcases List.mem_cons.1 (Text.words_word hne hword hstarts ▸ hw) with rfl | hw
      · exact List.mem_cons_self
      · exact hlater hw
    | @char c _ hc _ => exact hlater (Text.words_other hc _ ▸ hw)
    | @enclosed kind t _ =>
      cases kind with
      | lineComment => exact hlater hw
      | blockComment => exact hlater (Text.words_other (c := ' ') (by decide) _ ▸ hw)
      | string => exact hlater (Sealed.words_placeholder lits.size _ ▸ hw)
      | rawcode => exact hlater (Sealed.words_placeholder lits.size _ ▸ hw)
    | unclosed => exact absurd List.mem_cons_self (hclosed _ _)

theorem not_isQuote_of_mem_placeholder {k : Nat} {c : Char} (h : c ∈ placeholder k) :
    isQuote c = false := by
  rcases Literal.eq_mark_or_isDigit_of_mem_placeholder h with rfl | hdigit
  · decide
  · exact isQuote_of_isWordChar (by simp [isWordChar, Char.isAlphanum, hdigit])

theorem not_isQuote_of_mem_collectBody {lits : Literals} {ls : List Lexeme} (h : Lexed ls)
    (hgenuine : ∀ l ∈ ls, l.Genuine) {c : Char} (hc : c ∈ (collectBody lits ls).1) :
    isQuote c = false := by
  induction ls generalizing lits with
  | nil => cases hc
  | cons l rest ih =>
    rw [List.forall_mem_cons] at hgenuine
    rw [collectBody_cons, List.mem_append] at hc
    rcases hc with hc | hc
    · cases h with
      | word _ hword => exact isQuote_of_isWordChar (hword c hc)
      | char =>
        rw [List.mem_singleton.1 hc]
        exact hgenuine.1
      | @enclosed kind t _ =>
        cases kind with
        | lineComment => cases hc
        | blockComment =>
          rw [List.mem_singleton.1 hc]
          decide
        | string => exact not_isQuote_of_mem_placeholder (k := lits.size) hc
        | rawcode => exact not_isQuote_of_mem_placeholder (k := lits.size) hc
      | unclosed => cases hc
    · exact ih h.tail hgenuine.2 hc

/-! ### Regions -/

theorem closing_not_mem_of_mem_regions {ls : List Lexeme} {kind : BlockKind} {body : List Lexeme}
    {closed : Bool} (h : .block kind body closed ∈ regions ls) : kind.closing ∉ body := by
  fun_induction regions ls with
  | case1 => cases h
  | case2 l rest _ ih =>
    rcases List.mem_cons.1 h with heq | h
    · cases heq
    · exact ih h
  | case3 l rest kind' _ ih =>
    rcases List.mem_cons.1 h with heq | h
    · cases heq
      exact closing_not_mem_bodyOf kind rest
    · exact ih h

/-- In a script without an open end no block is left open. -/
theorem openPart_of_mem_regions {ls : List Lexeme}
    (hend : ∀ r ∈ (regions ls).getLast?, r.openPart? = none) :
    ∀ r ∈ regions ls, r.openPart? = none := by
  fun_induction regions ls with
  | case1 =>
    intro r hr
    cases hr
  | case2 l rest _ ih => exact List.forall_mem_cons.2 ⟨rfl, ih (regions_openPart hend)⟩
  | case3 l rest kind _ ih =>
    refine List.forall_mem_cons.2 ⟨?_, ih (regions_openPart hend)⟩
    by_cases hclosed : tailOf kind rest = []
    · refine hend _ ?_
      rw [hclosed, List.drop_nil, regions]
      rfl
    · have hne : (tailOf kind rest != []) = true := by simpa using hclosed
      rw [hne]
      cases kind <;> rfl

/-- A closed block among the regions, in its place among the lexemes. -/
theorem exists_of_mem_regions {ls : List Lexeme} {kind : BlockKind} {body : List Lexeme}
    (h : .block kind body true ∈ regions ls) :
    ∃ pre tail, ls = pre ++ .word kind.keyword :: (body ++ kind.closing :: tail) := by
  obtain ⟨before, after, hsplit⟩ := List.append_of_mem h
  have hls := flatMap_lexemes_regions ls
  rw [hsplit, List.flatMap_append, List.flatMap_cons] at hls
  refine ⟨before.flatMap Region.lexemes, after.flatMap Region.lexemes, ?_⟩
  rw [← hls]
  simp [Region.lexemes]

/-- A text of a kind is left by a block of that kind. -/
theorem exists_region_of_mem_textsOf {lits : Literals} {rs : List Region} {kind : BlockKind}
    {t : Text} (hkind : kind ≠ .native) (h : t ∈ textsOf kind (collectAll lits rs).1) :
    ∃ lits body closed, .block kind body closed ∈ rs ∧ t = (collectBody lits body).1 := by
  induction rs generalizing lits with
  | nil => cases h
  | cons r rest ih =>
    have hlater : ∀ {lits : Literals}, t ∈ textsOf kind (collectAll lits rest).1 →
        ∃ lits body closed, .block kind body closed ∈ r :: rest ∧
          t = (collectBody lits body).1 := by
      intro lits hmem
      obtain ⟨lits', body, closed, hr, ht⟩ := ih hmem
      exact ⟨lits', body, closed, List.mem_cons_of_mem r hr, ht⟩
    cases r with
    | outside l => exact hlater h
    | block kind' body closed =>
      have hsplit : textsOf kind (collectAll lits (.block kind' body closed :: rest)).1 =
          (if kind' = kind then [(Region.collect lits (.block kind' body closed)).1] else []) ++
            textsOf kind
              (collectAll (Region.collect lits (.block kind' body closed)).2 rest).1 := by
        simp only [collectAll, textsOf, List.filterMap_cons]
        split <;> simp_all
      rw [hsplit, List.mem_append] at h
      rcases h with h | h
      · split at h
        · rename_i hsame
          subst hsame
          refine ⟨lits, body, closed, List.mem_cons_self, ?_⟩
          rw [List.mem_singleton.1 h]
          cases kind' with
          | globals => rfl
          | function => rfl
          | native => exact absurd rfl hkind
        · cases h
      · exact hlater h

/-- A text with no quote and not the given word. -/
structure Bare (closing : Text) (t : Text) : Prop where
  words : closing ∉ Text.words t
  quotes : ∀ c ∈ t, isQuote c = false

section Blocks

variable {src : Text}

/-- The texts of closed blocks are bare. -/
theorem bare_textsOf (hmark : mark ∉ src) (hend : openEnd? src = none) {kind : BlockKind}
    {closing t : Text}
    (hclosing : kind.closing = .word closing) (h : t ∈ textsOf kind (collected src).1) :
    Bare closing t := by
  have hkind : kind ≠ .native := by
    rintro rfl
    cases hclosing
  obtain ⟨lits, body, closed, hr, rfl⟩ := exists_region_of_mem_textsOf hkind h
  have hopen := openPart_of_mem_regions (openPart_of_openEnd hend).2 _ hr
  have hclosed : closed = true := by
    cases closed with
    | true => rfl
    | false =>
      cases kind with
      | globals => cases hopen
      | function => cases hopen
      | native => exact absurd rfl hkind
  subst hclosed
  obtain ⟨pre, tail, hsplit⟩ := exists_of_mem_regions hr
  have hlexed := lexed_lexemes hmark
  have hparted := parted_lexemes src
  have hgenuine := genuine_lexemes src
  rw [hsplit] at hlexed hparted hgenuine
  have hinner := hlexed.right.tail
  have hbody : Parted body := by
    refine Parted.left ?_ hparted.right.2
    rw [hclosing]
    exact Lexeme.noConfusion
  -- what is never closed would be the last lexeme of the script
  have hunclosed : ∀ kind t, .unclosed kind t ∉ body := by
    intro kind' t hmem
    obtain ⟨before, after, rfl⟩ := List.append_of_mem hmem
    rw [List.append_assoc] at hinner
    have hlast := hinner.right
    cases hlast with
    | unclosed _ hnil => simp at hnil
  refine ⟨fun hw => ?_, fun c hc => ?_⟩
  · have hmem := word_mem_of_collectBody hinner.left hbody hunclosed hw
    rw [← hclosing] at hmem
    exact closing_not_mem_of_mem_regions hr hmem
  · refine not_isQuote_of_mem_collectBody hinner.left (fun l hl => hgenuine l ?_) hc
    exact List.mem_append_right _ (List.mem_cons_of_mem _ (List.mem_append_left _ hl))

theorem sealed_of_mem_textsOf (hmark : mark ∉ src) (hend : openEnd? src = none) {kind : BlockKind}
    (hkind : kind.finish = id) {t : Text} (h : t ∈ textsOf kind (collected src).1) :
    Sealed (collected src).2.size t := by
  have htexts := map_finish_textsOf kind (collected src).1
  rw [hkind, List.map_id] at htexts
  rw [htexts] at h
  obtain ⟨e, he, rfl⟩ := List.mem_map.1 h
  obtain ⟨ns, hns⟩ := (holdEach_collected hmark hend).exists_holds (List.mem_filter.1 he).1
  exact Sealed.of_holds hns

theorem bare_foldl_joinGlobals {closing : Text} {n : Nat} {ts : List Text} {sofar : Text}
    (h : ∀ t ∈ ts, Bare closing t ∧ Sealed n t) (hsofar : Bare closing sofar ∧ Sealed n sofar) :
    Bare closing (ts.foldl joinGlobals sofar) := by
  induction ts generalizing sofar with
  | nil => exact hsofar.1
  | cons t rest ih =>
    rw [List.forall_mem_cons] at h
    apply ih h.2
    rw [joinGlobals]
    split
    · exact h.1
    · refine ⟨⟨?_, fun c hc => ?_⟩, hsofar.2.append (.char (by decide) h.1.2)⟩
      · rw [hsofar.2.words_append_cons (by decide), List.mem_append, not_or]
        exact ⟨hsofar.1.words, h.1.1.words⟩
      · rcases List.mem_append.1 hc with hc | hc
        · exact hsofar.1.quotes c hc
        · rcases List.mem_cons.1 hc with rfl | hc
          · decide
          · exact h.1.1.quotes c hc

theorem texts_collectBody_lexemes (lits : Literals) (body : List Lexeme) :
    (collectBody lits body).2.texts = lits.texts ++ body.flatMap Lexeme.literals := by
  induction body generalizing lits with
  | nil => simp [collectBody]
  | cons l rest ih =>
    rw [collectBody_cons, ih, texts_collect, List.append_assoc, List.flatMap_cons]

theorem closedLiteral_collectAll {lits : Literals} {rs : List Region}
    (hlits : ∀ raw ∈ lits.texts, ClosedLiteral raw)
    (h : ∀ r ∈ rs, ∀ l ∈ r.body, l.Genuine) :
    ∀ raw ∈ (collectAll lits rs).2.texts, ClosedLiteral raw := by
  induction rs generalizing lits with
  | nil => exact hlits
  | cons r rest ih =>
    rw [List.forall_mem_cons] at h
    refine ih ?_ h.2
    have hbody : ∀ body : List Lexeme, (∀ l ∈ body, l.Genuine) →
        ∀ raw ∈ (collectBody lits body).2.texts, ClosedLiteral raw := by
      intro body hgenuine raw hraw
      rw [texts_collectBody_lexemes, List.mem_append] at hraw
      rcases hraw with hraw | hraw
      · exact hlits raw hraw
      · obtain ⟨l, hl, hraw⟩ := List.mem_flatMap.1 hraw
        have hl := hgenuine l hl
        cases l with
        | char => cases hraw
        | word => exact hl raw hraw
        | enclosed => exact hl raw hraw
        | unclosed => exact hl raw hraw
    cases r with
    | outside => exact hlits
    | block kind body closed => cases kind <;> exact hbody body h.1

theorem closedLiteral_collected (src : Text) :
    ∀ raw ∈ (collected src).2.texts, ClosedLiteral raw := by
  refine closedLiteral_collectAll nofun fun r hr l hl => genuine_lexemes src l ?_
  rw [← flatMap_lexemes_regions (lexemes src), List.mem_flatMap]
  refine ⟨r, hr, ?_⟩
  cases r with
  | outside => cases hl
  | block kind body closed => exact List.mem_cons_of_mem _ (List.mem_append_left _ hl)

end Blocks

end ScriptMinifier.Source
