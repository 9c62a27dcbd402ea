import ScriptMinifier.Proofs.Naming.Spared
import ScriptMinifier.Proofs.Output.Extraction

/-! Extracting the truth values can be undone.

A constant for a truth value has a name that stands nowhere in the program, so replacing the names
by the words gives the program back (`Extracts`). This rests on the pool: it has to spare the words
of the program, which it does when the same pool has named the globals and the locals have been
renamed (`extracts_extractTruth`). -/
namespace ScriptMinifier

open Text (Wordly replacement words replaceWords)
open Syntax (Declaration Function Parameter)
open Naming (Pool renameGlobals renameAllLocals)

/-! ### Replacing words of a program -/

namespace Program

variable {p : Program} {f g : Text → Option Text}

/-- The words that may be replaced. -/
def openWords (p : Program) : List Text :=
  p.globals.flatMap (fun d => words (d.value.getD [])) ++ p.functions.flatMap fun f => words f.body

theorem openWords_subset_vocabulary (p : Program) : p.openWords ⊆ p.vocabulary := by
  intro w hw
  rcases List.mem_append.1 hw with hvalue | hbody
  · obtain ⟨d, hd, hmem⟩ := List.mem_flatMap.1 hvalue
    exact List.mem_append_left _
      (List.mem_flatMap.2 ⟨d, List.mem_of_mem_filter hd, List.mem_cons_of_mem _ hmem⟩)
  · obtain ⟨f, hf, hmem⟩ := List.mem_flatMap.1 hbody
    exact List.mem_append_right _ (List.mem_flatMap.2 ⟨f, hf, List.mem_cons_of_mem _ hmem⟩)

/-- Replacing twice is replacing once. -/
theorem replaceOpen_replaceOpen (hf : Wordly f) (g : Text → Option Text) (p : Program) :
    (p.replaceOpen f).replaceOpen g = p.replaceOpen fun w => some
    (replacement g (replacement f w)) := by
  have hdeclaration : ∀ d : Declaration, (d.replaceOpen f).replaceOpen g =
      d.replaceOpen fun w => some (replacement g (replacement f w)) := by
    intro d
    unfold Declaration.replaceOpen
    by_cases hconstant : d.constant = true
    · simp only [hconstant, if_true]
    · simp only [hconstant, Declaration.mapValue, if_false, Bool.false_eq_true, Option.map_map,
        Function.comp_def, Text.replaceWords_replaceWords hf]
  have hfunction : ∀ h : Function, (h.replaceBody f).replaceBody g =
      h.replaceBody fun w => some (replacement g (replacement f w)) := by
    intro h
    simp only [Function.replaceBody, Text.replaceWords_replaceWords hf]
  simp only [replaceOpen, List.map_map, Function.comp_def, hdeclaration, hfunction]

/-- Replacements that agree on the words that may be replaced give the same program. -/
theorem replaceOpen_congr (h : ∀ w ∈ p.openWords, replacement f w = replacement g w) :
    p.replaceOpen f = p.replaceOpen g := by
  have hdeclarations : p.declarations.map (Declaration.replaceOpen f) =
      p.declarations.map (Declaration.replaceOpen g) := by
    refine List.map_congr_left fun d hd => ?_
    unfold Declaration.replaceOpen
    split
    · rfl
    · rename_i hopen
      have hglobal : d ∈ p.globals := List.mem_filter.2 ⟨hd, by simpa using hopen⟩
      unfold Declaration.mapValue
      cases hvalue : d.value with
      | none => rfl
      | some v =>
        rw [Option.map_some, Option.map_some, Text.replaceWords_congr_words fun w hw => h w ?_]
        exact List.mem_append_left _ (List.mem_flatMap.2 ⟨d, hglobal, by rw [hvalue]; exact hw⟩)
  have hfunctions :
      p.functions.map (Function.replaceBody f) = p.functions.map (Function.replaceBody g) := by
    refine List.map_congr_left fun k hk => ?_
    rw [Function.replaceBody, Function.replaceBody,
      Text.replaceWords_congr_words fun w hw => h w ?_]
    exact List.mem_append_right _ (List.mem_flatMap.2 ⟨k, hk, hw⟩)
  rw [replaceOpen, replaceOpen, hdeclarations, hfunctions]

theorem replaceOpen_eq_self (h : ∀ w ∈ p.openWords, replacement f w = w) : p.replaceOpen f = p := by
  have hnone : p.replaceOpen (fun _ => none) = p := by
    have htext : replaceWords (fun _ => none) = id := funext Text.replaceWords_none
    have hdeclaration : Declaration.replaceOpen (fun _ => none) = id := by
      funext d
      rw [Declaration.replaceOpen, Declaration.mapValue, htext, Option.map_id]
      exact ite_self d
    have hfunction : Function.replaceBody (fun _ => none) = id := by
      funext k
      rw [Function.replaceBody, Text.replaceWords_none]
      rfl
    rw [replaceOpen, hdeclaration, hfunction, List.map_id, List.map_id]
  rw [replaceOpen_congr (g := fun _ => none) h, hnone]

theorem openWords_replaceOpen (hf : Wordly f) (p : Program) :
    (p.replaceOpen f).openWords = p.openWords.map (replacement f) := by
  have hglobals :
      (p.replaceOpen f).globals = p.globals.map fun d => d.mapValue (replaceWords f) := by
    rw [globals, globals, replaceOpen, List.filter_map]
    have hconstant :
        (fun d : Declaration => !d.constant) ∘ Declaration.replaceOpen f =
          fun d => !d.constant := by
      funext d
      rw [Function.comp_apply, Declaration.replaceOpen]
      split <;> rfl
    rw [hconstant]
    refine List.map_congr_left fun d hd => ?_
    have hopen := (List.mem_filter.1 hd).2
    rw [Declaration.replaceOpen, if_neg (by simpa using hopen)]
  rw [openWords, hglobals, openWords, List.map_append, List.flatMap_map, List.map_flatMap,
    List.map_flatMap]
  simp only [Declaration.mapValue, Text.words_getD_map hf, replaceOpen, List.flatMap_map,
    Function.replaceBody, Text.words_replaceWords hf]

/-- Constants in front have no word that may be replaced. -/
theorem openWords_append {cs : List Declaration} (hcs : ∀ d ∈ cs, d.constant = true) (p : Program) :
    openWords { p with declarations := cs ++ p.declarations } = p.openWords := by
  have hnone : cs.filter (!·.constant) = [] := List.filter_eq_nil_iff.2 fun d hd => by
    simp [hcs d hd]
  rw [openWords, openWords, globals, globals, List.filter_append, hnone, List.nil_append]

/-- Constants in front stay when words are replaced. -/
theorem replaceOpen_append {cs : List Declaration} (hcs : ∀ d ∈ cs, d.constant = true)
    (g : Text → Option Text) (p : Program) :
    Program.replaceOpen g { p with declarations := cs ++ p.declarations } =
      { p.replaceOpen g with declarations := cs ++ (p.replaceOpen g).declarations } := by
  have hkept : cs.map (Declaration.replaceOpen g) = cs := by
    conv => rhs; rw [← List.map_id cs]
    exact List.map_congr_left fun d hd => if_pos (hcs d hd)
  simp only [replaceOpen, List.map_append, hkept]

end Program

/-- Where only one thing becomes another, the second is there as often as the first was. -/
theorem count_map_of_iff {f : Text → Text} {ts : List Text} {a b : Text}
    (h : ∀ t ∈ ts, f t = b ↔ t = a) :
    (ts.map f).count b = ts.count a := by
  rw [List.count, List.countP_map, List.count]
  refine List.countP_congr fun t ht => ?_
  rw [Function.comp_apply, beq_iff_eq, beq_iff_eq]
  exact h t ht

namespace Output

variable {p : Program} {pool : Pool} {ws : List Text} {xs : List Extraction}

/-! ### Words and their names -/

/-- The constant that an extraction declares. -/
def Extraction.constant (x : Extraction) : Declaration := truthConstant x.word x.name x.uses

/-- The names that words have got. -/
def nameOf (xs : List Extraction) : Text.Renaming := .ofPairs (xs.map fun x => (x.word, x.name))

/-- The words that have got names. -/
def wordOf (xs : List Extraction) : Text.Renaming := .ofPairs (xs.map fun x => (x.name, x.word))

/-- Extractions of different words under different names, none of which is one of some words. -/
structure Fresh (ws : List Text) (xs : List Extraction) : Prop where
  words : (xs.map Extraction.word).Nodup
  names : (xs.map Extraction.name).Nodup
  apart : ∀ x ∈ xs, x.name ∉ ws
  ident : ∀ x ∈ xs, Text.isIdent x.name = true

namespace Fresh

variable {w r : Text}

theorem find?_nameOf (h : Fresh ws xs) :
    (nameOf xs).find? w = some r ↔ ∃ x ∈ xs, x.word = w ∧ x.name = r := by
  rw [nameOf, Text.Dictionary.find?_ofPairs_eq_some (by rw [List.map_map]; exact h.words),
    List.mem_map]
  simp only [Prod.mk.injEq]

theorem find?_wordOf (h : Fresh ws xs) :
    (wordOf xs).find? w = some r ↔ ∃ x ∈ xs, x.name = w ∧ x.word = r := by
  rw [wordOf, Text.Dictionary.find?_ofPairs_eq_some (by rw [List.map_map]; exact h.names),
    List.mem_map]
  simp only [Prod.mk.injEq]

theorem find?_nameOf_eq_none : (nameOf xs).find? w = none ↔ w ∉ xs.map Extraction.word := by
  rw [nameOf, Text.Dictionary.find?_ofPairs_eq_none, List.map_map]
  rfl

theorem find?_wordOf_eq_none : (wordOf xs).find? w = none ↔ w ∉ xs.map Extraction.name := by
  rw [wordOf, Text.Dictionary.find?_ofPairs_eq_none, List.map_map]
  rfl

theorem wordly_nameOf (h : Fresh ws xs) : Wordly (nameOf xs).find? := by
  intro w r hr
  obtain ⟨x, hx, -, rfl⟩ := h.find?_nameOf.1 hr
  exact ⟨Text.ne_nil_of_isIdent (h.ident x hx), Text.isWordChar_of_isIdent (h.ident x hx)⟩

/-- A word's name, and nothing else, takes the place of the word. -/
theorem replacement_eq_name (h : Fresh ws xs) {x : Extraction} (hx : x ∈ xs) (hw : w ∈ ws) :
    replacement (nameOf xs).find? w = x.name ↔ w = x.word := by
  unfold replacement
  constructor
  · cases hfind : (nameOf xs).find? w with
    | none =>
      rintro rfl
      exact absurd hw (h.apart x hx)
    | some r =>
      obtain ⟨y, hy, rfl, rfl⟩ := h.find?_nameOf.1 hfind
      intro heq
      rw [List.inj_on_of_nodup_map h.names hy hx heq]
  · rintro rfl
    rw [h.find?_nameOf.2 ⟨x, hx, rfl, rfl⟩]
    rfl

/-- No word that has got a name is left. -/
theorem replacement_ne_word (h : Fresh ws xs) {x : Extraction} (hx : x ∈ xs) (hword : x.word ∈ ws)
    (w : Text) :
    replacement (nameOf xs).find? w ≠ x.word := by
  unfold replacement
  cases hfind : (nameOf xs).find? w with
  | none =>
    rintro rfl
    exact find?_nameOf_eq_none.1 hfind (List.mem_map_of_mem hx)
  | some r =>
    obtain ⟨y, hy, -, rfl⟩ := h.find?_nameOf.1 hfind
    rw [Option.getD_some]
    intro heq
    exact h.apart y hy (heq ▸ hword)

/-- The words come back. -/
theorem replacement_replacement (h : Fresh ws xs) (hw : w ∈ ws) :
    replacement (wordOf xs).find? (replacement (nameOf xs).find? w) = w := by
  have hname : replacement (nameOf xs).find? w = ((nameOf xs).find? w).getD w := rfl
  rw [hname]
  cases hfind : (nameOf xs).find? w with
  | none =>
    have hnone : w ∉ xs.map Extraction.name := by
      intro hmem
      obtain ⟨x, hx, rfl⟩ := List.mem_map.1 hmem
      exact h.apart x hx hw
    rw [Option.getD_none, replacement, find?_wordOf_eq_none.2 hnone]
    rfl
  | some r =>
    obtain ⟨x, hx, rfl, rfl⟩ := h.find?_nameOf.1 hfind
    rw [Option.getD_some, replacement, h.find?_wordOf.2 ⟨x, hx, rfl, rfl⟩]
    rfl

end Fresh

/-! ### Extracting words -/

theorem words_extractWords (p : Program) (pool : Pool) (ws : List Text) :
    ((extractWords p pool ws).extractions.map Extraction.word).Sublist ws := by
  induction ws generalizing p pool with
  | nil => exact .slnil
  | cons word rest ih =>
    rw [extractWords]
    dsimp only
    split
    · exact (ih p pool).cons _
    · exact (ih _ _).cons_cons word

/-- The names are dealt one after the other. -/
theorem names_extractWords (p : Program) (pool : Pool) (ws : List Text) :
    (extractWords p pool ws).extractions.map Extraction.name =
      (pool.drawMany (extractWords p pool ws).extractions.length).1 := by
  induction ws generalizing p pool with
  | nil => rfl
  | cons word rest ih =>
    rw [extractWords]
    dsimp only
    split
    · exact ih p pool
    · exact congrArg (List.cons pool.draw.1) (ih _ pool.draw.2)

theorem fresh_extractWords {vs : List Text} (hspares : pool.Spares vs) (hnodup : ws.Nodup)
    (p : Program) :
    Fresh vs (extractWords p pool ws).extractions where
  words := (words_extractWords p pool ws).nodup hnodup
  names := by
    rw [names_extractWords]
    exact Pool.nodup_drawMany pool _
  apart := by
    intro x hx
    have hdrawn := List.mem_map_of_mem (f := Extraction.name) hx
    rw [names_extractWords] at hdrawn
    exact hspares _ _ hdrawn
  ident := by
    intro x hx
    have hdrawn := List.mem_map_of_mem (f := Extraction.name) hx
    rw [names_extractWords] at hdrawn
    exact Pool.isIdent_of_mem_drawMany hdrawn

theorem wordly_only (word : Text) (pool : Pool) : Wordly (Text.only word pool.draw.1) := by
  intro w r hr
  obtain ⟨-, rfl⟩ := Text.only_eq_some.1 hr
  have hident : Text.isIdent pool.draw.1 = true :=
    Pool.isIdent_of_mem_drawMany (n := 1) List.mem_cons_self
  exact ⟨Text.ne_nil_of_isIdent hident, Text.isWordChar_of_isIdent hident⟩

/-- The constant of a word stays when other words are replaced. -/
theorem replaceOpen_replaceWord {word name : Text} (g : Text → Option Text) (p : Program) :
    (replaceWord word name p).replaceOpen g =
      { (p.replaceOpen (Text.only word name)).replaceOpen g with
        declarations := truthConstant word name (wordUses p word) ::
          ((p.replaceOpen (Text.only word name)).replaceOpen g).declarations } := rfl

/-- A word that is not extracted stays as often. -/
theorem wordUses_replaceWord {word w : Text} (hword : w ≠ word) (hname : w ≠ pool.draw.1)
    (p : Program) :
    wordUses (replaceWord word pool.draw.1 p) w = wordUses p w := by
  have hconstant : ∀ d ∈ [truthConstant word pool.draw.1 (wordUses p word)], d.constant = true :=
    List.forall_mem_singleton.2 rfl
  have hopen : (replaceWord word pool.draw.1 p).openWords =
      p.openWords.map (replacement (Text.only word pool.draw.1)) :=
    (Program.openWords_append hconstant _).trans
      (Program.openWords_replaceOpen (wordly_only word pool) p)
  show (replaceWord word pool.draw.1 p).openWords.count w = p.openWords.count w
  rw [hopen]
  refine count_map_of_iff fun t _ => ?_
  rw [replacement, Text.only]
  split
  · rename_i heq
    exact iff_of_false (fun h => hname h.symm) fun h => hword (h.symm.trans heq)
  · rfl

theorem uses_extractWords (hspares : pool.Spares ws) (hnodup : ws.Nodup) (p : Program) :
    ∀ x ∈ (extractWords p pool ws).extractions, x.uses = wordUses p x.word := by
  induction ws generalizing p pool with
  | nil => nofun
  | cons word rest ih =>
    obtain ⟨hword, hrest⟩ := List.nodup_cons.1 hnodup
    obtain ⟨hdraw, hlater⟩ := hspares.draw
    rw [extractWords]
    dsimp only
    split
    · exact ih (hspares.mono (List.subset_cons_self _ _)) hrest p
    · refine List.forall_mem_cons.2 ⟨rfl, fun x hx => ?_⟩
      have hmem : x.word ∈ rest := (words_extractWords _ _ _).subset (List.mem_map_of_mem hx)
      have hsubset : rest ⊆ pool.draw.1 :: word :: rest :=
        fun _ h => List.mem_cons_of_mem _ (List.mem_cons_of_mem _ h)
      rw [ih (hlater.mono hsubset) hrest _ x hx]
      refine wordUses_replaceWord (fun heq => hword ?_) (fun heq => hdraw ?_) p
      · rwa [heq] at hmem
      · rw [heq] at hmem
        exact List.mem_cons_of_mem word hmem

/-- The names of an extraction and of those after it, one step after the other. -/
theorem replacement_nameOf_cons {x : Extraction} (h : Fresh ws (x :: xs))
    (hname : x.name ∉ xs.map Extraction.word) (w : Text) :
    replacement (nameOf xs).find? (replacement (Text.only x.word x.name) w) = replacement
    (nameOf (x :: xs)).find? w := by
  have hrest : Fresh ws xs := ⟨(List.nodup_cons.1 h.words).2, (List.nodup_cons.1 h.names).2,
    fun y hy => h.apart y (List.mem_cons_of_mem _ hy),
      fun y hy => h.ident y (List.mem_cons_of_mem _ hy)⟩
  by_cases hw : w = x.word
  · have hfind : (nameOf (x :: xs)).find? x.word = some x.name :=
      h.find?_nameOf.2 ⟨x, List.mem_cons_self, rfl, rfl⟩
    have honly : Text.only x.word x.name x.word = some x.name := if_pos rfl
    simp only [replacement, hw, hfind, honly, Option.getD_some, Fresh.find?_nameOf_eq_none.2 hname,
      Option.getD_none]
  · have honly : Text.only x.word x.name w = none := if_neg hw
    have hfind : (nameOf (x :: xs)).find? w = (nameOf xs).find? w := by
      cases hfind : (nameOf xs).find? w with
      | none =>
        rw [Fresh.find?_nameOf_eq_none, List.map_cons, List.mem_cons, not_or]
        exact ⟨hw, Fresh.find?_nameOf_eq_none.1 hfind⟩
      | some r =>
        obtain ⟨y, hy, hyw, hyr⟩ := hrest.find?_nameOf.1 hfind
        exact h.find?_nameOf.2 ⟨y, List.mem_cons_of_mem _ hy, hyw, hyr⟩
    simp only [replacement, honly, hfind, Option.getD_none]

/-- The constants are put in front, the last one first, and the words are replaced by their
names. -/
theorem program_extractWords (hspares : pool.Spares ws) (hnodup : ws.Nodup) (p : Program) :
    (extractWords p pool ws).program =
      { p.replaceOpen (nameOf (extractWords p pool ws).extractions).find? with
        declarations := ((extractWords p pool ws).extractions.map Extraction.constant).reverse ++
          (p.replaceOpen (nameOf (extractWords p pool ws).extractions).find?).declarations } := by
  induction ws generalizing p pool with
  | nil => exact (Program.replaceOpen_eq_self fun w _ => rfl).symm
  | cons word rest ih =>
    have hfresh := fresh_extractWords hspares hnodup p
    obtain ⟨-, hrest⟩ := List.nodup_cons.1 hnodup
    obtain ⟨hdraw, hlater⟩ := hspares.draw
    rw [extractWords] at hfresh ⊢
    dsimp only at hfresh ⊢
    split at hfresh
    · rename_i hkept
      rw [if_pos hkept]
      exact ih (hspares.mono (List.subset_cons_self _ _)) hrest p
    · rename_i hkept
      rw [if_neg hkept]
      dsimp only
      have hsubset : rest ⊆ pool.draw.1 :: word :: rest :=
        fun _ h => List.mem_cons_of_mem _ (List.mem_cons_of_mem _ h)
      have hmore := ih (hlater.mono hsubset) hrest (replaceWord word pool.draw.1 p)
      have hwords := words_extractWords (replaceWord word pool.draw.1 p) pool.draw.2 rest
      generalize extractWords (replaceWord word pool.draw.1 p) pool.draw.2 rest =
        more at hfresh hmore hwords
      have hnone : pool.draw.1 ∉ more.extractions.map Extraction.word := fun hmem =>
        hdraw (List.mem_cons_of_mem word (hwords.subset hmem))
      have hnames := replacement_nameOf_cons hfresh hnone
      rw [hmore, replaceOpen_replaceWord, Program.replaceOpen_replaceOpen (wordly_only word pool),
        Program.replaceOpen_congr (g := (nameOf (_ :: more.extractions)).find?) fun w _ => hnames w]
      rw [List.map_cons, List.reverse_cons, List.append_assoc]
      rfl

/-! ### What an extraction owes -/

/-- The program with the words put back for the names, and without as many declarations as words
were extracted. -/
def Extracted.undone (e : Extracted) : Program :=
  let p := e.program.replaceOpen (wordOf e.extractions).find?
  { p with declarations := p.declarations.drop e.extractions.length }

/-- What extracting truth values from a program owes. -/
structure Extracts (p : Program) (e : Extracted) : Prop where
  /-- The words are truth values, each extracted once, -/
  words : (e.extractions.map Extraction.word).Sublist truthWords
  /-- and their names are distinct; -/
  names : (e.extractions.map Extraction.name).Nodup
  /-- no name was a word of a value or of a body or the name of a declaration or of a function. -/
  fresh : ∀ x ∈ e.extractions, x.name ∉ p.vocabulary
  /-- The constants stand before all other declarations, the last one first, and nothing else
  happens than that the words get their names in the bodies and in the values of globals. -/
  program : e.program =
    { p.replaceOpen (nameOf e.extractions).find? with
      declarations := (e.extractions.map Extraction.constant).reverse ++
        (p.replaceOpen (nameOf e.extractions).find?).declarations }
  /-- A constant counts the occurrences of its word. Its name stands in their place and nowhere
  else, and the word is left nowhere. -/
  uses : ∀ x ∈ e.extractions, x.uses = wordUses p x.word ∧ wordUses e.program x.name = x.uses ∧
    wordUses e.program x.word = 0
  /-- Putting the words back gives the program back. -/
  undone : e.undone = p

theorem constant_of_mem_constants {d : Declaration} (h : d ∈ (xs.map Extraction.constant).reverse) :
    d.constant = true := by
  obtain ⟨x, -, rfl⟩ := List.mem_map.1 (List.mem_reverse.1 h)
  rfl

/-- An extraction can be undone, where the pool spares the program. -/
theorem extracts_of_spares
    (hspares : pool.Spares (Syntax.keywords ++ Syntax.datatypes ++ p.vocabulary)) :
    Extracts p (extractTruth p pool) := by
  have htruth : truthWords ⊆ Syntax.keywords ++ Syntax.datatypes ++ p.vocabulary := by
    have hkeywords : ∀ w ∈ truthWords, w ∈ Syntax.keywords := by decide
    exact fun w hw => List.mem_append_left _ (List.mem_append_left _ (hkeywords w hw))
  have hopen : p.openWords ⊆ Syntax.keywords ++ Syntax.datatypes ++ p.vocabulary := fun w hw =>
    List.mem_append_right _ (p.openWords_subset_vocabulary hw)
  have hnodup : truthWords.Nodup := by decide
  have hwords := words_extractWords p pool truthWords
  have hfresh := fresh_extractWords hspares hnodup p
  have hprogram := program_extractWords (hspares.mono htruth) hnodup p
  have huses := uses_extractWords (hspares.mono htruth) hnodup p
  rw [extractTruth]
  generalize extractWords p pool truthWords = e at hwords hfresh hprogram huses
  have hmapped :
      e.program.openWords = p.openWords.map (replacement (nameOf e.extractions).find?) := by
    rw [hprogram, Program.openWords_append fun d => constant_of_mem_constants,
      Program.openWords_replaceOpen hfresh.wordly_nameOf]
  constructor
  case words => exact hwords
  case names => exact hfresh.names
  case fresh => exact fun x hx hmem => hfresh.apart x hx (List.mem_append_right _ hmem)
  case program => exact hprogram
  case uses =>
    intro x hx
    refine ⟨huses x hx, ?_, ?_⟩
    · show e.program.openWords.count x.name = x.uses
      rw [hmapped, huses x hx]
      exact count_map_of_iff fun w hw => hfresh.replacement_eq_name hx (hopen hw)
    · show e.program.openWords.count x.word = 0
      rw [hmapped, List.count_eq_zero, List.mem_map]
      rintro ⟨w, -, heq⟩
      exact hfresh.replacement_ne_word hx (htruth (hwords.subset (List.mem_map_of_mem hx))) w heq
  case undone =>
    have hback :
        (p.replaceOpen (nameOf e.extractions).find?).replaceOpen (wordOf e.extractions).find? =
          p := by
      rw [Program.replaceOpen_replaceOpen hfresh.wordly_nameOf]
      exact Program.replaceOpen_eq_self fun w hw => hfresh.replacement_replacement (hopen hw)
    have hlength :
        ((e.extractions.map Extraction.constant).reverse).length = e.extractions.length := by
      rw [List.length_reverse, List.length_map]
    rw [Extracted.undone, hprogram, Program.replaceOpen_append (fun d => constant_of_mem_constants),
      hback, ← hlength, List.drop_left]

/-- **Extracting the truth values captures nothing and can be undone**, when the pool has named the
globals of a program and the locals have been renamed, as long as no placeholder of a body reaches
over the end of a line. -/
theorem extracts_extractTruth (p : Program)
    (hlanguage : ∀ name ∈ p.declarationNames ++ p.functionNames,
      name ∉ Syntax.keywords ++ Syntax.datatypes)
    (hparams : ∀ f ∈ p.functions, (Parameter.parseAll? f.params).isSome = true)
    (hclosed : ∀ f ∈ p.functions, Text.Closed f.body) :
    let r := renameGlobals p (Pool.new .globals)
    Extracts (renameAllLocals r.program) (extractTruth (renameAllLocals r.program) r.pool) :=
  extracts_of_spares (Naming.spares_vocabulary rfl hlanguage hparams hclosed)

/-- A program with a global, and a function that has a local of the same name. -/
def flaggingProgram : Program :=
  { declarations := [
      { constant := false, array := false, type := "boolean".toList, name := ['B'],
        value := some "false".toList }],
    functions := [
      .new "main".toList "nothing".toList "nothing".toList
        (Text.joined '\n' (List.replicate 9 "set B=true".toList)),
      .new ['F'] "nothing".toList "nothing".toList "local boolean B=true\nset B=not B".toList] }

/-- The global and the function are named `A` and `B`, so the pool goes on with `C`, and the local
`B` has given way to a name of a local. -/
theorem flaggingProgram_extracts :
    let r := renameGlobals flaggingProgram (Pool.new .globals)
    (extractTruth (renameAllLocals r.program) r.pool).extractions = [⟨"true".toList, 10, ['C']⟩] ∧
      Extracts (renameAllLocals r.program) (extractTruth (renameAllLocals r.program) r.pool) :=
  ⟨by decide +kernel, extracts_extractTruth flaggingProgram (by decide +kernel) (by decide +kernel)
    (by decide +kernel)⟩

/-- A program whose first body has a placeholder that reaches over the end of a line. -/
def reachingProgram : Program :=
  { functions := [
      .new "main".toList "nothing".toList "nothing".toList
        "local integer u=\x000\ncall A()\x00".toList,
      .new "config".toList "nothing".toList "nothing".toList
        (Text.joined '\n' (List.replicate 9 "set x=true".toList))] }

/-- The line that goes with the local takes the first mark along, and `A` comes out, which is dealt
to `true`. -/
theorem extraction_captures :
    ¬ ∀ p : Program, (p.declarationNames ++ p.functionNames).Nodup →
      (∀ name ∈ p.declarationNames ++ p.functionNames, name ∉ Syntax.keywords ++ Syntax.datatypes) →
      (∀ f ∈ p.functions, (Parameter.parseAll? f.params).isSome = true) →
      let r := renameGlobals p (Pool.new .globals)
      Extracts (renameAllLocals r.program) (extractTruth (renameAllLocals r.program) r.pool) := by
  intro h
  have hextracts := h reachingProgram (by decide +kernel) (by decide +kernel) (by decide +kernel)
  have hextractions :
      (extractTruth (renameAllLocals (renameGlobals reachingProgram (Pool.new .globals)).program)
        (renameGlobals reachingProgram (Pool.new .globals)).pool).extractions =
        [⟨"true".toList, 9, ['A']⟩] := by decide +kernel
  have hmem : ['A'] ∈ (renameAllLocals
      (renameGlobals reachingProgram (Pool.new .globals)).program).vocabulary := by
    decide +kernel
  exact hextracts.fresh _ (hextractions ▸ List.mem_cons_self) hmem

end Output
end ScriptMinifier
