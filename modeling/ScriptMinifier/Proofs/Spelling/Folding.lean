import ScriptMinifier.Proofs.Constant.Values
import ScriptMinifier.Proofs.Spelling.Counting

/-! Folding a respelled program.

A constant of a respelled program has a value if the constant of the program has, and the same
(`verdict?_respell`). Values hold no names (`IsValue`), so putting them in goes before or after
respelling, for the declarations one constant at a time (`foldsAlike_foldFrom`) and for the
functions at once (`Respelled.fold`). -/
namespace ScriptMinifier

open Constant
  (Value Verdict evalAs fold foldFrom foldedNames foldedPairs foldedValues replaceIn replaceInTurn
    replaceName
  valueWords verdict? verdicts candidateValue?)
open Syntax (Declaration Function)
open Text (mark words dollarWords replaceWords replacement)

variable {g : Text → Option Text} {p p' : Program} {f f' : Function} {t w : Text}

/-! ### Values -/

/-- Replacements of names by values. -/
def GivesValues (g f : Text → Option Text) : Prop := ∀ w r, f w = some r → g w ≠ none ∧ IsValue r

theorem IsValue.outside (hg : Spelling g) (h : IsValue t) (hw : w ∈ words t) : Outside g w :=
  hg.outside_of_value (h.word_cases hw)

theorem GivesValues.mem_words {f : Text → Option Text} (hf : GivesValues g f)
    (hw : w ∈ words (replaceWords f t)) :
    (w ∈ valueWords ∨ ∃ c ∈ w.head?, c.isDigit = true) ∨ w ∈ words t ∧ f w = none :=
  mem_words_replaceWords_of_isValue (fun w r hr => (hf w r hr).2) hw

/-- Putting values in leaves a text that can be respelled. -/
theorem Respellable.replaceWords (hg : Spelling g) {f : Text → Option Text} (hf : GivesValues g f)
    (h : Respellable g t) :
    Respellable g (replaceWords f t) where
  old := by
    intro w hw
    rcases hf.mem_words hw with hvalue | ⟨hmem, -⟩
    · exact (hg.outside_of_value hvalue).old
    · exact h.old w hmem
  dollar := by
    have hplain : Text.BringsNoSigns f :=
      fun w r hr c hc => Text.isPlain_of_isSmooth ((hf w r hr).2.isSmooth c hc)
    have hkept : ∀ w ∈ dollarWords t, f w = none := by
      intro w hw
      cases hfw : f w with
      | none => rfl
      | some r => exact absurd (h.dollar w hw) (hf w r hfw).1
    rw [Spelling.dollarWords_eq_of_kept hplain hkept]
    exact h.dollar

/-- Putting values in goes before or after respelling. -/
theorem GivesValues.comm (hg : Spelling g) {f f' : Text → Option Text} (hf : GivesValues g f)
    (h : ∀ w ∈ words t, f' (replacement g w) = f w) :
    Text.replaceWords f' (Text.replaceWords g t) = Text.replaceWords g (Text.replaceWords f t) :=
  hg.replaceWords_comm (fun w r hr => (hf w r hr).2.mark_not_mem)
    (fun w r hr _ hx => ((hf w r hr).2.outside hg hx).kept) h

theorem givesValues_single {name value : Text} (hname : g name ≠ none) (hvalue : IsValue value) :
    GivesValues g fun w => if w = name then some value else none := by
  intro w r hr
  rw [Option.ite_none_right_eq_some] at hr
  obtain ⟨rfl, hr⟩ := hr
  obtain rfl := Option.some.inj hr
  exact ⟨hname, hvalue⟩

theorem replaceName_comm (hg : Spelling g) {name value : Text} (hname : g name ≠ none)
    (hvalue : IsValue value) (h : ∀ w ∈ words t, Old g w) :
    replaceName (replacement g name) value (replaceWords g t) = replaceWords g
    (replaceName name value t) := by
  refine (givesValues_single hname hvalue).comm hg fun w hw => ?_
  have hiff : replacement g w = replacement g name ↔ w = name :=
    ⟨hg.replacement_injective (h w hw) (hg.old_of_named hname), fun heq => heq ▸ rfl⟩
  simp only [hiff]

/-! ### Declarations -/

/-- What becomes of a respelled declaration. -/
theorem verdict?_respell (hg : Spelling g) {d : Declaration} (hd : SuitsDeclaration g d)
    (ls : Literals) :
    match verdict? ls d with
    | none => verdict? ls (d.respell g) = none
    | some (.folded name value) =>
      verdict? ls (d.respell g) = some (.folded (replacement g name) value) ∧ IsValue value
    | some (.kept name _) =>
      ∃ fault, verdict? ls (d.respell g) = some (.kept (replacement g name) fault) := by
  have hcandidate : candidateValue? (d.respell g) = (candidateValue? d).map (replaceWords g) := by
    rw [candidateValue?, candidateValue?, Declaration.respell]
    split <;> rfl
  rw [verdict?, verdict?, hcandidate]
  cases hvalue : candidateValue? d with
  | none => rfl
  | some t =>
    have ht : d.value = some t := by
      rw [candidateValue?] at hvalue
      split at hvalue
      · exact hvalue
      · cases hvalue
    have heval := hg.toOption_evalAs (hd.value t ht) ls d.type
    simp only [Option.map_some, Declaration.respell]
    cases hok : evalAs ls d.type t with
    | ok v =>
      rw [hok] at heval
      cases hok' : evalAs ls d.type (replaceWords g t) with
      | ok v' =>
        rw [hok'] at heval
        obtain rfl : v' = v := Option.some.inj heval
        exact ⟨rfl, v', Constant.proper_evalAs hok, rfl⟩
      | error fault =>
        rw [hok'] at heval
        cases heval
    | error fault =>
      rw [hok] at heval
      cases hok' : evalAs ls d.type (replaceWords g t) with
      | ok v' =>
        rw [hok'] at heval
        cases heval
      | error fault' => exact ⟨fault', rfl⟩

theorem respell_mapValue (hg : Spelling g) {name value : Text} (hname : g name ≠ none)
    (hvalue : IsValue value) {d : Declaration} (hd : SuitsDeclaration g d) :
    (d.respell g).mapValue (replaceName (replacement g name) value) =
    (d.mapValue (replaceName name value)).respell g := by
  have hcomm : (d.value.map (replaceWords g)).map (replaceName (replacement g name) value) =
      (d.value.map (replaceName name value)).map (replaceWords g) := by
    cases hv : d.value with
    | none => rfl
    | some t => exact congrArg some (replaceName_comm hg hname hvalue (hd.value t hv).old)
  rw [Declaration.respell, Declaration.mapValue, Declaration.mapValue, Declaration.respell, hcomm]

theorem SuitsDeclaration.mapValue (hg : Spelling g) {name value : Text} (hname : g name ≠ none)
    (hvalue : IsValue value)
    {d : Declaration} (hd : SuitsDeclaration g d) :
    SuitsDeclaration g (d.mapValue (replaceName name value)) where
  named := hd.named
  type := hd.type
  value := by
    intro v hv
    obtain ⟨u, hu, rfl⟩ := Option.map_eq_some_iff.1 hv
    exact (hd.value u hu).replaceWords hg (givesValues_single hname hvalue)

/-- Outcomes of folding of which the second is the first, respelled. -/
structure FoldsAlike (g : Text → Option Text) (out out' : List Declaration × List Verdict) :
    Prop where
  declarations : out'.1 = out.1.map (Declaration.respell g)
  pairs : foldedPairs out'.2 = (foldedPairs out.2).map fun pair => (replacement g pair.1, pair.2)
  suits : ∀ d ∈ out.1, SuitsDeclaration g d
  values : ∀ pair ∈ foldedPairs out.2, g pair.1 ≠ none ∧ IsValue pair.2

/-- Respelled declarations are folded alike. The induction is on how many are left, since those left
change with every constant. -/
theorem foldsAlike_foldFrom (hg : Spelling g) (ls : Literals) {done ds : List Declaration}
    (hdone : ∀ d ∈ done, SuitsDeclaration g d) (hds : ∀ d ∈ ds, SuitsDeclaration g d) :
    FoldsAlike g (foldFrom ls done ds)
      (foldFrom ls (done.map (Declaration.respell g)) (ds.map (Declaration.respell g))) := by
  induction hn : ds.length generalizing done ds with
  | zero =>
    rw [List.length_eq_zero_iff] at hn
    subst hn
    rw [List.map_nil, foldFrom, foldFrom]
    refine ⟨List.map_reverse.symm, rfl, fun d hd => hdone d (List.mem_reverse.1 hd),
      fun pair hpair => ?_⟩
    cases hpair
  | succ n ih =>
    obtain ⟨d, rest, rfl⟩ := List.exists_cons_of_length_eq_add_one hn
    rw [List.length_cons, Nat.add_right_cancel_iff] at hn
    rw [List.forall_mem_cons] at hds
    have hkept : ∀ e ∈ d :: done, SuitsDeclaration g e := List.forall_mem_cons.2 ⟨hds.1, hdone⟩
    have hverdict := verdict?_respell hg hds.1 ls
    rw [List.map_cons, foldFrom, foldFrom]
    cases hv : verdict? ls d with
    | none =>
      rw [hv] at hverdict
      rw [hverdict]
      exact ih hkept hds.2 hn
    | some verdict =>
      cases verdict with
      | kept name fault =>
        rw [hv] at hverdict
        obtain ⟨fault', hverdict⟩ := hverdict
        rw [hverdict]
        obtain ⟨hdeclarations, hpairs, hsuits, hvalues⟩ := ih hkept hds.2 hn
        exact ⟨hdeclarations, hpairs, hsuits, hvalues⟩
      | folded name value =>
        rw [hv] at hverdict
        obtain ⟨hverdict, hvalue⟩ := hverdict
        have hname : g name ≠ none := by
          rw [Constant.name_of_verdict? hv]
          exact hds.1.named
        rw [hverdict]
        have hmap : ∀ es : List Declaration, (∀ e ∈ es, SuitsDeclaration g e) →
            (es.map (Declaration.respell g)).map
                (Declaration.mapValue (replaceName (replacement g name) value)) =
                (es.map (Declaration.mapValue (replaceName name value))).map
                  (Declaration.respell g) ∧
              ∀ e ∈ es.map (Declaration.mapValue (replaceName name value)),
                SuitsDeclaration g e := by
          intro es hes
          rw [List.map_map, List.map_map]
          refine ⟨List.map_congr_left fun e he => respell_mapValue hg hname hvalue (hes e he),
            fun e he => ?_⟩
          obtain ⟨e₀, he₀, rfl⟩ := List.mem_map.1 he
          exact (hes e₀ he₀).mapValue hg hname hvalue
        simp only [(hmap done hdone).1, (hmap rest hds.2).1]
        obtain ⟨hdeclarations, hpairs, hsuits, hvalues⟩ :=
          ih (hmap done hdone).2 (hmap rest hds.2).2 (by rw [List.length_map, hn])
        refine ⟨hdeclarations, ?_, hsuits, ?_⟩
        · rw [Constant.foldedPairs_folded, hpairs, Constant.foldedPairs_folded, List.map_cons]
        · rw [Constant.foldedPairs_folded]
          exact List.forall_mem_cons.2 ⟨⟨hname, hvalue⟩, hvalues⟩

/-! ### Programs -/

/-- A name that is declared and not folded is declared after folding. -/
theorem mem_declarationNames_fold {w : Text} (hw : w ∈ p.declarationNames)
    (hfolded : w ∉ foldedNames p) :
    w ∈ (Constant.fold p).declarationNames := by
  obtain ⟨d, hd, rfl⟩ := List.mem_map.1 hw
  exact List.mem_map.2 ⟨_, Constant.mapValue_mem_fold hd hfolded, rfl⟩

section Programs

variable (hg : Spelling g) (hp : Suits g p)

include hg hp

theorem Suits.foldsAlike : FoldsAlike g (foldFrom p.literals [] p.declarations)
    (foldFrom p.literals [] (p.declarations.map (Declaration.respell g))) :=
  foldsAlike_foldFrom hg p.literals (fun d (hd : d ∈ []) => nomatch hd) hp.declarations

theorem Suits.givesValues_folded (f : Function) : GivesValues g (visible (foldedValues p) f) :=
  fun w r hr =>
    (hp.foldsAlike hg).values (w, r) (Text.Dictionary.mem_of_find?_ofPairs (find?_of_visible hr))

theorem Suits.scopedNames_replaceIn (f : Function) :
    (replaceIn (foldedValues p) f).scopedNames = f.scopedNames := by
  have hnamed : ∀ name ∈ p.declarationNames, g name ≠ none := by
    intro name hname
    obtain ⟨d, hd, rfl⟩ := List.mem_map.1 hname
    exact (hp.declarations d hd).named
  refine ScriptMinifier.scopedNames_replaceIn (fun name hname => ?_) (fun w hw hname => ?_) f
  · obtain ⟨r, hr⟩ := Option.ne_none_iff_exists'.1 (hnamed name hname)
    exact (hg.ident name r hr).1
  · exact hnamed w hname (hg.outside_of_mem (Spelling.mem_languageWords hw)).kept

theorem Suits.fold : Suits g (fold p) where
  declarations := (hp.foldsAlike hg).suits
  functions := by
    intro f hf
    obtain ⟨f₀, hf₀, rfl⟩ := List.mem_map.1 hf
    have h := hp.functions f₀ hf₀
    refine ⟨h.entry, h.named, h.params, h.result,
      h.body.replaceWords hg (hp.givesValues_folded hg f₀), ?_, ?_⟩
    · rw [hp.scopedNames_replaceIn hg]
      exact h.bound
    · intro idiom hmem
      rcases (hp.givesValues_folded hg f₀).mem_words hmem with hvalue | ⟨hmem, -⟩
      · have hcallee : idiom.callee ∉ valueWords ∧ ∀ c ∈ idiom.callee.head?, c.isDigit ≠ true := by
          cases idiom <;> decide +kernel
        exact hvalue.elim hcallee.1 fun ⟨c, hc, hdigit⟩ => hcallee.2 c hc hdigit
      · exact h.idioms idiom hmem
  natives := hp.natives
  quiet := hp.quiet

/-- A folded constant is found under its new name. -/
theorem Suits.visible_respelled (h : Respelled g p p') {f f' : Function} (hf : SuitsFunction g f)
    (hr : Respells g f f')
    {w : Text} (hw : Old g w) :
    visible (foldedValues p') f' (replacement g w) = visible (foldedValues p) f w := by
  have hvalues : (foldedValues p').find? (replacement g w) = (foldedValues p).find? w := by
    have hpairs : foldedPairs (verdicts p') =
        (foldedPairs (verdicts p)).map fun pair => (replacement g pair.1, pair.2) := by
      rw [verdicts, h.literals, h.declarations]
      exact (hp.foldsAlike hg).pairs
    show (Text.Dictionary.ofPairs (foldedPairs (verdicts p'))).find? _ = _
    rw [hpairs]
    refine Text.Dictionary.find?_ofPairs_map fun other hother => ?_
    obtain ⟨pair, hpair, rfl⟩ := List.mem_map.1 hother
    exact hg.replacement_injective (hg.old_of_named ((hp.foldsAlike hg).values pair hpair).1) hw
  unfold visible
  rw [Respelled.scopedNames hg hf hr, hvalues]
  simp [Respelled.replacement_mem_scopedNames hg hf hw]

/-- Folding a respelled program folds the program and respells it. -/
theorem Respelled.fold (h : Respelled g p p') : Respelled g (fold p) (fold p') where
  literals := h.literals
  natives := h.natives
  declarations := by
    show (foldFrom p'.literals [] p'.declarations).1 = _
    rw [h.literals, h.declarations]
    exact (hp.foldsAlike hg).declarations
  functions := by
    refine List.forall₂_map_left_iff.2
      (List.forall₂_map_right_iff.2 ((h.suited hp).imp fun f f' hf => ?_))
    obtain ⟨hsuits, hr⟩ := hf
    refine ⟨hr.name, hr.params, hr.result, ?_, hr.entry⟩
    show replaceWords (visible (foldedValues p') f') f'.body = _
    rw [hr.body]
    exact (hp.givesValues_folded hg f).comm hg fun w hw => hp.visible_respelled hg h hsuits hr
      (hsuits.body.old w hw)

/-- Folding leaves no name without what it names. -/
theorem Closed.fold (h : Closed g p) : Closed g (Constant.fold p) where
  values := by
    intro d hd v hv w hw hnamed
    obtain ⟨retained, hsub, heq⟩ := Constant.declarations_fold p
    rw [heq] at hd
    obtain ⟨d₀, hd₀, rfl⟩ := List.mem_map.1 hd
    obtain ⟨u, hu, rfl⟩ := Option.map_eq_some_iff.1 hv
    rcases mem_words_replaceInTurn (fun pair hpair => ((hp.foldsAlike hg).values pair hpair).2)
      hw with hvalue | ⟨hmem, hfolded⟩
    · exact absurd (hg.outside_of_value hvalue).kept hnamed
    exact mem_declarationNames_fold (h.values d₀ (hsub.subset hd₀) u hu w hmem hnamed) hfolded
  bodies := by
    intro f hf w hw hnamed
    obtain ⟨f₀, hf₀, rfl⟩ := List.mem_map.1 hf
    rcases (hp.givesValues_folded hg f₀).mem_words hw with hvalue | ⟨hmem, hkept⟩
    · exact absurd (hg.outside_of_value hvalue).kept hnamed
    have hnames : (Constant.fold p).functionNames = p.functionNames := List.map_map
    rw [hnames]
    refine (h.bodies f₀ hf₀ w hmem hnamed).imp_left fun hdeclared => mem_declarationNames_fold
      hdeclared ?_
    have hvisible : w ∉ f₀.scopedNames :=
      fun hbound => hnamed ((hp.functions f₀ hf₀).bound w hbound).kept
    unfold visible at hkept
    rw [if_neg (by simpa using hvisible)] at hkept
    exact Text.Dictionary.find?_ofPairs_eq_none.1 hkept

end Programs

end ScriptMinifier
