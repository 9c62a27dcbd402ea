import ScriptMinifier.Proofs.Output.FinalBodies
import ScriptMinifier.Proofs.Output.ReadNames

/-! Programs as a run leaves them.

From the program that a run names to the one that it writes (`finished`), functions and declarations
keep their order (`exists_carried`, `exists_carriedDeclaration`). A word becomes the name that it is
given, or the constant of a truth value (`finalName`), and what lasts in a function is still cited
there (`Carried.exists_cites`). -/
namespace ScriptMinifier

open Syntax (Declaration Function Parameter)
open Text (isHorizontal replacement)

namespace Output

open Naming (Pool newName newNames renameGlobals renameAllLocals renameFunction)

variable {p : Program} {k : Nat} {w : Text}

/-- What a run makes of a program that it names. -/
def finished (p : Program) : Extracted :=
  extractTruth (renameAllLocals (renameGlobals p (Pool.new .globals)).program)
    (renameGlobals p (Pool.new .globals)).pool

/-- The names that the truth values get. -/
def truthNames (p : Program) : Text → Option Text := (nameOf (finished p).extractions).find?

/-- The word that a word becomes where no function binds it. -/
def finalName (p : Program) (w : Text) : Text := replacement (truthNames p) (newName p w)

theorem truthWords_subset_keywords : truthWords ⊆ Syntax.keywords := by decide

theorem fresh_finished (p : Program) :
    Fresh (Syntax.keywords ++ Syntax.datatypes ++
      (p.declarationNames ++ p.functionNames).map (newName p)) (finished p).extractions :=
  fresh_extractWords (Naming.spares_newNames p) (by decide) _

theorem program_finished (p : Program) : (finished p).program =
    { (renameAllLocals (renameGlobals p (Pool.new .globals)).program).replaceOpen
      (truthNames p) with
      declarations := ((finished p).extractions.map Extraction.constant).reverse ++
        ((renameAllLocals (renameGlobals p (Pool.new .globals)).program).replaceOpen
          (truthNames p)).declarations } := by
  refine program_extractWords ((Naming.spares_newNames p).mono fun w hw => ?_) (by decide) _
  exact List.mem_append_left _ (List.mem_append_left _ (truthWords_subset_keywords hw))

theorem word_mem_truthWords {x : Extraction} (hx : x ∈ (finished p).extractions) :
    x.word ∈ truthWords :=
  (words_extractWords _ _ truthWords).subset (List.mem_map_of_mem hx)

/-- The names of the truth values are new, -/
theorem exists_of_truthNames {r : Text} (h : truthNames p w = some r) :
    w ∈ truthWords ∧ ∃ x ∈ (finished p).extractions, x.word = w ∧ x.name = r := by
  obtain ⟨x, hx, rfl, rfl⟩ := (fresh_finished p).find?_nameOf.1 h
  exact ⟨word_mem_truthWords hx, x, hx, rfl, rfl⟩

theorem givesIdents_truthNames (p : Program) : GivesIdents (truthNames p) := by
  intro w r hr
  obtain ⟨-, x, hx, -, rfl⟩ := exists_of_truthNames hr
  exact (fresh_finished p).ident x hx

theorem foreign_truthNames (p : Program) : Foreign (truthNames p) := by
  refine ⟨(givesIdents_truthNames p).smooth, fun w r hr => ?_, fun w r hr hmem => ?_⟩
  · have hwords : ∀ w ∈ truthWords, Text.isIdent w = true := by decide
    exact hwords w (exists_of_truthNames hr).1
  · obtain ⟨-, x, hx, -, rfl⟩ := exists_of_truthNames hr
    exact (fresh_finished p).apart x hx
      (List.mem_append_left _ (Syntax.localWords_subset_language hmem))

/-! ### Functions -/

/-- What is left of a function: its lines but those with an unused local, with words replaced. A
name that the function does not bind becomes what it becomes everywhere. -/
structure Carried (p : Program) (f f' : Function) (g : Text → Option Text) : Prop where
  name : f'.name = newName p f.name
  idents : GivesIdents g
  fixed : ∀ w, Usage.Unbound p f w → replacement g w = finalName p w
  keeps : ∀ line, f.Keeps line → line ≠ [] → Text.replaceWords g line ∈ Text.pieces '\n' f'.body
  lower : ∀ x ∈ f'.scopedNames, x.any Char.isUpper = false
  plainLocals : f.PlainLocals → f'.PlainLocals
  spaced : ∀ c ∈ f'.body, isHorizontal c = true → c = ' '

section Steps

variable {l m n : Nat} {f f₁ f₂ f₃ : Function} {g : Text → Option Text}

/-- Naming the globals, naming the locals and extracting the truth values, one after the other. -/
theorem Carried.of_steps (hf : Sealed m f.body)
    (hspaced : ∀ c ∈ f.body, isHorizontal c = true → c = ' ')
    (hglobals : Naming.Rewritten (visible (newNames p (Pool.new .globals)) f) f f₁)
    (hf₁ : Sealed l f₁.body) (hlocals : Naming.LocalsRenamed f₁ f₂ g) (hf₂ : Sealed n f₂.body)
    (htruths : Naming.Rewritten (truthNames p) f₂ f₃) (hname : f₃.name = newName p f.name) :
    Carried p f f₃ (Text.andThen
      (Text.andThen (visible (newNames p (Pool.new .globals)) f) g) (truthNames p)) := by
  have hvisible : GivesIdents (visible (newNames p (Pool.new .globals)) f) := fun w r hr =>
    givesIdents_deal _ _ w r (find?_of_visible hr)
  have hidents := hvisible.andThen hlocals.idents
  have hspaced₁ := Text.spaced_replaceWords hglobals.foreign.smooth hspaced
  rw [← hglobals.body] at hspaced₁
  constructor
  case name => exact hname
  case idents => exact hidents.andThen (givesIdents_truthNames p)
  case fixed =>
    intro w hw
    have hnew : replacement (visible (newNames p (Pool.new .globals)) f) w = newName p w := by
      rw [replacement, visible, if_neg fun hbound => hw.old (List.contains_iff_mem.1 hbound)]
      rfl
    have hfree : newName p w ∉ f₁.scopedNames := fun hbound =>
      hw.new (hglobals.scopedNames_subset hf hbound)
    have hsame : replacement g (newName p w) = newName p w := by
      rw [replacement, hlocals.bound _ hfree]
      rfl
    rw [Text.replacement_andThen, Text.replacement_andThen, hnew, hsame]
    rfl
  case keeps =>
    intro line hline hne
    have hne₁ := Sealed.replaceWords_ne_nil hglobals.foreign.smooth hne
    have hmem := hlocals.keeps _ (hglobals.keeps hf hline) hne₁
    rw [hidents.replaceWords_andThen, hvisible.replaceWords_andThen, htruths.pieces_body hf₂]
    exact List.mem_map_of_mem hmem
  case lower => exact fun x hx => (hlocals.lower x (htruths.scopedNames_subset hf₂ hx)).1
  case plainLocals =>
    exact fun hplain => htruths.plainLocals hf₂
      (hlocals.plainLocals hf₁ (hglobals.plainLocals hf hplain))
  case spaced =>
    have hspaced₃ := Text.spaced_replaceWords htruths.foreign.smooth (hlocals.spaced hspaced₁)
    rwa [← htruths.body] at hspaced₃

end Steps

/-- The name of a function changes with the globals. -/
theorem name_steps (names : Text.Renaming) (g : Text → Option Text) (f : Function) :
    ((Naming.renameLocals (renameFunction names f)).function.replaceBody g).name =
      Naming.renamed names f.name := Naming.name_renameLocals _

theorem functions_finished (p : Program) : (finished p).program.functions = p.functions.map fun f =>
    (Naming.renameLocals (renameFunction (newNames p (Pool.new .globals)) f)).function.replaceBody
      (truthNames p) := by
  have hfunctions : ((renameAllLocals (renameGlobals p (Pool.new .globals)).program).replaceOpen
      (truthNames p)).functions =
        ((p.functions.map (renameFunction (newNames p (Pool.new .globals)))).map
        fun f => (Naming.renameLocals f).function).map (Function.replaceBody (truthNames p)) := rfl
  rw [program_finished, hfunctions, List.map_map, List.map_map]
  rfl

theorem functionNames_finished (p : Program) :
    (finished p).program.functionNames = p.functionNames.map (newName p) := by
  rw [Program.functionNames, functions_finished, List.map_map, Program.functionNames, List.map_map]
  refine List.map_congr_left fun f _ => ?_
  rw [Function.comp_apply, name_steps, Function.comp_apply, newName]

/-- Every function is carried to the end of a run. -/
theorem exists_carried (hp : p.Prepared) {f : Function} (hf : p.functions[k]? = some f) :
    ∃ f' g, (finished p).program.functions[k]? = some f' ∧ Carried p f f' g := by
  have hmem := List.mem_of_getElem? hf
  have hglobals := Naming.sealed_renameGlobals hp.sealed (Pool.new .globals)
  have hmem₁ : renameFunction (newNames p (Pool.new .globals)) f ∈
      (renameGlobals p (Pool.new .globals)).program.functions := List.mem_map_of_mem hmem
  have hsealed₁ := (hglobals.functions _ hmem₁).body
  have hrewritten := rewritten_renamed hp.named f
  have hspaced₁ := Text.spaced_replaceWords hrewritten.foreign.smooth (hp.spaced f hmem)
  rw [← hrewritten.body] at hspaced₁
  have hlocals := Naming.localsRenamed hsealed₁ (hp.listed f hmem) hspaced₁
  have hsealed₂ :=
    ((Naming.sealed_renameAllLocals hglobals).functions _ (List.mem_map_of_mem hmem₁)).body
  refine ⟨Function.replaceBody (truthNames p) _, _, ?_, .of_steps (hp.sealed.functions f hmem).body
    (hp.spaced f hmem) hrewritten hsealed₁ hlocals hsealed₂
    ⟨foreign_truthNames p, fun w hw => ?_, rfl, rfl⟩ (by rw [name_steps, newName])⟩
  · rw [functions_finished, List.getElem?_map, hf]
    rfl
  · refine Option.eq_none_iff_forall_ne_some.2 fun r hr => (hlocals.lower w hw).2 ?_
    exact List.mem_append_left _ (truthWords_subset_keywords (exists_of_truthNames hr).1)

/-! ### Names -/

theorem finalName_of_kept (h : newName p w ∉ truthWords) : finalName p w = newName p w := by
  have hnone : truthNames p (newName p w) = none :=
    Option.eq_none_iff_forall_ne_some.2 fun r hr => h (exists_of_truthNames hr).1
  rw [finalName, replacement, hnone]
  rfl

/-- A name of the program ends as the name that it is given. -/
theorem finalName_of_name (hp : p.Prepared) (hw : w ∈ p.declarationNames ∨ w ∈ p.functionNames) :
    finalName p w = newName p w :=
  finalName_of_kept (hp.newName_not_mem_truthWords hw)

/-- A name that the program leaves to the host stays. -/
theorem finalName_of_undeclared {f : Function} (h : Undeclared p f w) (htruth : w ∉ truthWords) :
    finalName p w = w := by
  have hsame := Usage.newName_of_undeclared h
  rw [finalName_of_kept (by rwa [hsame]), hsame]

/-- A truth value ends as the name that it gets, unless something of the program is called so. -/
theorem finalName_truth {x : Extraction} (hx : x ∈ (finished p).extractions)
    (hdeclared : x.word ∉ p.declarationNames) (hfunction : x.word ∉ p.functionNames) :
    finalName p x.word = x.name := by
  have hsame : newName p x.word = x.word := by
    refine Naming.newName_of_not_mem fun hmem => ?_
    rcases Naming.mem_globalOrder.1 hmem with hname | ⟨f, hf, -, hname⟩
    · exact hdeclared hname
    · exact hfunction (hname ▸ List.mem_map_of_mem hf)
  have hfind : truthNames p x.word = some x.name :=
    (fresh_finished p).find?_nameOf.2 ⟨x, hx, rfl, rfl⟩
  rw [finalName, hsame, replacement, hfind]
  rfl

/-- The name of a truth value is a name of a global. -/
theorem any_isUpper_truth {x : Extraction} (hx : x ∈ (finished p).extractions) :
    x.name.any Char.isUpper = true := by
  have hscheme : (renameGlobals p (Pool.new .globals)).pool.scheme = .globals :=
    Pool.drawMany_scheme (Naming.reserveKept p (Pool.new .globals)) _
  have hdrawn := List.mem_map_of_mem (f := Extraction.name) hx
  rw [finished, extractTruth, names_extractWords] at hdrawn
  exact Pool.any_isUpper_of_mem_drawMany hscheme hdrawn

/-! ### Literals -/

theorem literals_finished (p : Program) :
    (finished p).program.literals = (renameGlobals p (Pool.new .globals)).program.literals := by
  rw [program_finished]
  rfl

/-- A name in a literal is replaced by the name that it is given. -/
theorem exists_literal_finished {n : Nat} {raw : Text} (hn : n ∈ Naming.namingLiterals p)
    (hget : p.literals.get? n = some raw) (hname : Usage.literalName? raw = some w) :
    ∃ raw', (finished p).program.literals.get? n = some raw' ∧
      Usage.literalName? raw' = some (newName p w) := by
  obtain ⟨before, after, rfl, hfirst⟩ := exists_firstWord hname
  obtain ⟨hne, hword⟩ := Naming.isWord_renamed p (Pool.new .globals) hfirst.ne_nil hfirst.word
  refine ⟨_, ?_, hfirst.first _ hne hword⟩
  rw [literals_finished, Naming.get?_renameGlobals_of_mem hn hget, hfirst.replaced]
  rfl

/-! ### Declarations -/

theorem declarations_finished (p : Program) : (finished p).program.declarations =
    ((finished p).extractions.map Extraction.constant).reverse ++
      p.declarations.map fun d =>
        (Naming.renameDeclaration (newNames p (Pool.new .globals)) d).replaceOpen
          (truthNames p) := by
  have hrest : ((renameAllLocals (renameGlobals p (Pool.new .globals)).program).replaceOpen
      (truthNames p)).declarations = p.declarations.map fun d =>
        (Naming.renameDeclaration (newNames p (Pool.new .globals)) d).replaceOpen (truthNames p) :=
    List.map_map ..
  rw [program_finished, ← hrest]

/-- What is left of a declaration: the words of a value become what they become everywhere, and
those of a constant's value keep their truth values. -/
structure CarriedDeclaration (p : Program) (d d' : Declaration) (g : Text → Option Text) :
    Prop where
  name : d'.name = newName p d.name
  constant : d'.constant = d.constant
  idents : GivesIdents g
  value : d'.value = d.value.map (Text.replaceWords g)
  words : ∀ w, replacement g w = if d.constant then newName p w else finalName p w

/-- Naming a declaration and extracting the truth values, in one go. -/
theorem replaceOpen_renameDeclaration {names : Text.Renaming} (hnames : GivesIdents names.find?)
    (g : Text → Option Text) (d : Declaration) :
    (Naming.renameDeclaration names d).replaceOpen g =
      { d with
        name := Naming.renamed names d.name
        value := d.value.map
          (Text.replaceWords
            (if d.constant then names.find? else Text.andThen names.find? g)) } := by
  rw [Declaration.replaceOpen]
  split
  · rename_i hconstant
    have hclosed : d.constant = true := hconstant
    rw [if_pos hclosed]
    rfl
  · rename_i hconstant
    have hopen : ¬ d.constant = true := hconstant
    rw [if_neg hopen, funext (hnames.replaceWords_andThen g)]
    simp only [Naming.renameDeclaration, Declaration.mapValue, Option.map_map, Function.comp_def]

/-- Every declaration is carried to the end of a run. -/
theorem exists_carriedDeclaration {d : Declaration} (hd : p.declarations[k]? = some d) :
    ∃ d' g, (finished p).program.declarations[(finished p).extractions.length + k]? = some d' ∧
      CarriedDeclaration p d d' g := by
  have hnames : GivesIdents (newNames p (Pool.new .globals)).find? := givesIdents_deal _ _
  have hget : (finished p).program.declarations[(finished p).extractions.length + k]? = some
      ((Naming.renameDeclaration (newNames p (Pool.new .globals)) d).replaceOpen
        (truthNames p)) := by
    have hlength : ((finished p).extractions.map Extraction.constant).reverse.length =
        (finished p).extractions.length := by
      rw [List.length_reverse, List.length_map]
    rw [declarations_finished, List.getElem?_append_right (by omega), hlength,
      Nat.add_sub_cancel_left, List.getElem?_map, hd]
    rfl
  rw [replaceOpen_renameDeclaration hnames] at hget
  refine ⟨_, if d.constant then (newNames p (Pool.new .globals)).find? else
    Text.andThen (newNames p (Pool.new .globals)).find? (truthNames p), hget, ?_⟩
  constructor
  case name => rw [newName]
  case constant => rfl
  case idents =>
    split
    · exact hnames
    · exact hnames.andThen (givesIdents_truthNames p)
  case value => rfl
  case words =>
    intro w
    split
    · rw [newName]
      rfl
    · rw [Text.replacement_andThen, finalName, newName]
      rfl

/-! ### What is cited -/

/-- What a name that is cited becomes: a word becomes its final name, and a name in a literal the
name that it is given. -/
def citedName (p : Program) : Option Usage.Idiom → Text → Text
  | none, name => finalName p name
  | some _, name => newName p name

theorem isIdent_citedName (kind : Option Usage.Idiom) (hw : Text.isIdent w = true) :
    Text.isIdent (citedName p kind w) = true := by
  have hnew := Naming.isIdent_newName (p := p) hw
  cases kind with
  | none =>
    rw [citedName, finalName, replacement]
    exact (givesIdents_truthNames p).getD hnew
  | some idiom => exact hnew

/-- A name of the program is cited by the name that it is given. -/
theorem citedName_of_name (hp : p.Prepared) (hw : w ∈ p.declarationNames ∨ w ∈ p.functionNames)
    (kind : Option Usage.Idiom) : citedName p kind w = newName p w := by
  cases kind with
  | none => exact finalName_of_name hp hw
  | some idiom => rfl

/-- What lasts in a function is cited where the function is carried to, by its final name. -/
theorem Carried.exists_cites (hp : p.Prepared) (hlimit : p.literals.size ≤ Literal.indexLimit)
    {f f' : Function} {g : Text → Option Text} {kind : Option Usage.Idiom} {line : Text}
    (hf : f ∈ p.functions) (hcarried : Carried p f f' g) (hw : Text.isIdent w = true)
    (hlasts : Usage.LastsIn p f kind w line) :
    ∃ line' ∈ Text.pieces '\n' f'.body,
      Usage.Cites (finished p).program.literals line' kind (citedName p kind w) := by
  have hbody := (hp.sealed.functions f hf).body
  have hline := hbody.pieces (by decide) line hlasts.keeps.mem
  obtain ⟨hkeeps, hcites, huncovered⟩ := hlasts
  cases hcites with
  | word hstands =>
    have hne := hstands.ne_nil (Text.ne_nil_of_isIdent hw)
    refine ⟨_, hcarried.keeps line hkeeps hne, .word ?_⟩
    have hword : Text.replaceWords g w = finalName p w := by
      rw [Text.replaceWords_of_word (Text.ne_nil_of_isIdent hw) (Text.isWordChar_of_isIdent hw)]
      exact hcarried.fixed w huncovered
    rw [citedName, ← hword]
    exact hstands.replaceWords hcarried.idents.smooth (Text.exists_free_of_isIdent hw)
      (.of_all_isWordChar (Text.isWordChar_of_isIdent hw)) hline
  | @literal n idiom raw _ htakes hget hname =>
    have hn := Literals.lt_size_of_get? hget
    have hnaming : n ∈ Naming.namingLiterals p := Naming.mem_namingLiterals.2
      ⟨f, hf, idiom, htakes.mem_ids hbody hkeeps.mem (Nat.lt_of_lt_of_le hn hlimit)⟩
    obtain ⟨raw', hget', hname'⟩ := exists_literal_finished hnaming hget hname
    have hcallee : replacement g idiom.callee = idiom.callee := by
      have htruth : idiom.callee ∉ truthWords := by cases idiom <;> decide
      rw [hcarried.fixed _ (Usage.unbound_of_undeclared huncovered)]
      exact finalName_of_undeclared huncovered htruth
    have hne : line ≠ [] := by
      obtain ⟨u, htakes, -, hstands⟩ := htakes
      exact hstands.ne_nil htakes.ne_nil
    exact ⟨_, hcarried.keeps line hkeeps hne,
      .literal (htakes.replaceWords hcarried.idents hcallee hline hn) hget' hname'⟩

end Output
end ScriptMinifier
