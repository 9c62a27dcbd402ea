import ScriptMinifier.Proofs.Output.Items

/-! Writing a program and reading it back.

The script that a legible program is written as is read block by block. The text of each block
is that of the item it was written as, under another numbering of the literals, and so is the
rendering of a declaration or a function that differs in the numbers only
(`exists_declaration`, `exists_function`); these are read back. So what is read says the same as
what was written (`written_readback`). -/
namespace ScriptMinifier

open Text (mark isBlank ended)
open Literal (indexLimit)
open Source (Item Uncommented)
open Layout (collapseNewlines squeezeBlock squeezeNative)
open Output (assemble)
open Syntax (Declaration Function Native Parameter)

/-- What a program says: its parts with their literals put back. An empty value is none. -/
def Program.written (p : Program) : Program where
  declarations :=
    p.declarations.map fun d => { d with value := (d.value.map p.literals.restore).filter (· ≠ []) }
  natives := p.natives
  functions := p.functions.map fun f => { f with body := p.literals.restore f.body }

/-! ### Parts under another numbering -/

section Parts

variable {ls ls' : Literals} {u : Text}

/-- A declaration with its value numbered anew. -/
structure Renumbered (ls ls' : Literals) (d d' : Declaration) : Prop where
  value : Option.Rel (Alike ls ls') d.value d'.value
  rest : d' = { d with value := d'.value }

theorem regular_renumbered {d d' : Declaration} (h : Renumbered ls ls' d d') (hd : d.Regular) :
    d'.Regular := by
  have hvalue : ∀ v' ∈ d'.value, ∃ v ∈ d.value, Alike ls ls' v v' := by
    intro v' hv'
    have hrel := h.value
    rw [Option.mem_def.1 hv'] at hrel
    cases hv : d.value with
    | none =>
      rw [hv] at hrel
      cases hrel
    | some v =>
      rw [hv] at hrel
      cases hrel with
      | some hlike => exact ⟨v, rfl, hlike⟩
  have htype : d'.type = d.type := by rw [h.rest]
  have hname : d'.name = d.name := by rw [h.rest]
  refine ⟨htype ▸ hd.type, hname ▸ hd.name, fun v' hv' => ?_, fun v' hv' => ?_, fun v' hv' => ?_⟩
  all_goals obtain ⟨v, hv, hlike⟩ := hvalue v' hv'
  · exact hlike.tidy (hd.tidy v hv)
  · exact hlike.not_mem (by decide) (hd.newline v hv)
  · rw [← hlike.getLast?_eq]
    exact hd.last v hv

/-- What is alike to a declaration's text is the text of a renumbered declaration. -/
theorem exists_declaration {d : Declaration} (hd : d.Regular) (h : Alike ls ls' d.render u) :
    ∃ d', u = d'.render ∧ Renumbered ls ls' d d' := by
  have hmark : mark ∉ Text.joined ' ' d.words :=
    Declaration.not_mem_words hd (by decide) (by decide)
  rw [Declaration.render_eq] at h
  obtain ⟨rest, rfl, hrest⟩ := h.of_append hmark
  have hsame : d.assigned = [] → Option.Rel (Alike ls ls') d.value d.value →
      ∃ d', Text.joined ' ' d.words ++ rest = d'.render ∧ Renumbered ls ls' d d' := by
    intro hnil hrel
    rw [hnil] at hrest
    exact ⟨d, by rw [hrest.of_nil, Declaration.render_eq, hnil], hrel, rfl⟩
  match hvalue : d.value with
  | none =>
    refine hsame (by simp [Declaration.assigned, hvalue]) ?_
    rw [hvalue]
    exact .none
  | some [] =>
    refine hsame (by simp [Declaration.assigned, hvalue]) ?_
    rw [hvalue]
    exact .some .nil
  | some (c :: value) =>
    simp only [Declaration.assigned, hvalue] at hrest
    obtain ⟨value', rfl, hlike⟩ := hrest.of_cons (by decide)
    obtain ⟨c', more, rfl⟩ := List.exists_cons_of_ne_nil (hlike.ne_nil (by simp))
    refine ⟨{ d with value := some (c' :: more) }, ?_, ?_, rfl⟩
    · rw [Declaration.render_eq]
      rfl
    · rw [hvalue]
      exact .some hlike

theorem exists_declarations {ds : List Declaration} {lines' : List Text} (hds : ∀ d ∈ ds, d.Regular)
    (h : List.Forall₂ (fun (d : Declaration) line => Alike ls ls' d.render line) ds lines') :
    ∃ ds', lines' = ds'.map Declaration.render ∧ List.Forall₂ (Renumbered ls ls') ds ds' ∧
    ∀ d' ∈ ds', d'.Regular := by
  induction h with
  | nil => exact ⟨[], rfl, .nil, nofun⟩
  | cons hline _ ih =>
    rw [List.forall_mem_cons] at hds
    obtain ⟨ds', rfl, hmore, hregular⟩ := ih hds.2
    obtain ⟨d', rfl, hd⟩ := exists_declaration hds.1 hline
    exact ⟨d' :: ds', rfl, .cons hd hmore,
      List.forall_mem_cons.2 ⟨regular_renumbered hd hds.1, hregular⟩⟩

theorem inner_eq (f : Function) :
    f.inner = (' ' :: f.header.text ++ ['\n']) ++ if f.body = [] then [] else f.body ++ ['\n'] := by
  rw [Function.inner, Text.ended_cons, Function.lines]
  split
  · simp
  · rw [Text.ended_eq_joined (Text.pieces_ne_nil '\n' f.body), Text.joined_pieces]
    simp

/-- What is alike to a function's text is the text of the function with a body that is alike. -/
theorem exists_function {f : Function} (hf : f.Legible ls.size) (h : Alike ls ls' f.inner u) :
    ∃ body', Alike ls ls' f.body body' ∧ u = { f with body := body' }.inner ∧
    { f with body := body' }.Regular := by
  have hmark : mark ∉ ' ' :: f.header.text ++ ['\n'] := by
    have hheader := not_mem_header hf.regular.name hf.regular.result hf.listing (c := mark)
      (by decide) (by decide)
      (by decide)
    simp only [List.mem_append, List.mem_cons, List.not_mem_nil, or_false, not_or]
    exact ⟨⟨by decide, hheader⟩, by decide⟩
  rw [inner_eq] at h
  obtain ⟨rest, rfl, hrest⟩ := h.of_append hmark
  have hregular : ∀ body', Alike ls ls' f.body body' → { f with body := body' }.Regular := by
    intro body' hlike
    refine ⟨hf.regular.name, hf.regular.result, hf.regular.params, hf.regular.newline,
      fun hne => ?_, ?_⟩
    · refine hlike.neatLines (hf.regular.body fun hnil => hne ?_)
      rw [hnil] at hlike
      exact hlike.of_nil
    · exact hlike.getLast?_eq ▸ hf.regular.last
  by_cases hbody : f.body = []
  · rw [if_pos hbody] at hrest
    have hnil : Alike ls ls' f.body [] := by
      rw [hbody]
      exact .nil
    exact ⟨[], hnil, by rw [hrest.of_nil, inner_eq]; rfl, hregular [] hnil⟩
  · rw [if_neg hbody] at hrest
    obtain ⟨body', rest', rfl, hlike, hlast⟩ := hrest.of_append_cons (by decide)
    refine ⟨body', hlike, ?_, hregular body' hlike⟩
    rw [hlast.of_nil, inner_eq]
    show _ = _ ++ if body' = [] then [] else body' ++ ['\n']
    rw [if_neg (hlike.ne_nil hbody)]
    rfl

/-- A declaration that is read back says what it said. -/
theorem written_reread {d d' : Declaration} (h : Renumbered ls ls' d d') (huses : d.uses = 0)
    (hlimit : ls.size ≤ indexLimit) (hlimit' : ls'.size ≤ indexLimit) :
    { d'.reread with value := (d'.reread.value.map ls'.restore).filter (· ≠ []) } =
      { d with value := (d.value.map ls.restore).filter (· ≠ []) } := by
  have hvalue : ((d'.value.filter (· ≠ [])).map ls'.restore).filter (· ≠ []) =
      (d.value.map ls.restore).filter (· ≠ []) := by
    have hrel := h.value
    revert hrel
    generalize d.value = v, d'.value = v'
    rintro (hlike | _)
    · rename_i t t'
      have hrestore := hlike.restore_eq hlimit hlimit'
      by_cases hnil : t = []
      · rw [hnil] at hlike
        rw [hnil, hlike.of_nil]
        simp [Option.filter]
      · simp [Option.filter, hlike.ne_nil hnil, hrestore]
    · rfl
  show { d' with value := _, uses := 0 } = _
  rw [h.rest, Declaration.reread, hvalue, ← huses]

end Parts

/-! ### Reading the blocks -/

section Blocks

variable {p : Program}

theorem filter_items (p : Program) :
    p.items.filter (fun i => i.kind = .globals) =
        (if p.declarations = [] then []
          else [⟨.globals, ended ([] :: p.declarations.map Declaration.render)⟩]) ∧
      p.items.filter (fun i => i.kind = .native) = p.natives.map (fun n => ⟨.native, n.inner⟩) ∧
      p.items.filter (fun i => i.kind = .function) =
        p.functions.map fun f => ⟨.function, f.inner⟩ := by
  have hkind : ∀ {α : Type} (kind kind' : Source.BlockKind) (f : α → Text) (xs : List α),
      (xs.map fun x => (⟨kind, f x⟩ : Item)).filter (fun i => i.kind = kind') =
        if kind = kind' then xs.map fun x => ⟨kind, f x⟩ else [] := by
    intro α kind kind' f xs
    split
    · exact List.filter_eq_self.2 fun i hi => by
        obtain ⟨x, -, rfl⟩ := List.mem_map.1 hi
        simpa
    · exact List.filter_eq_nil_iff.2 fun i hi => by
        obtain ⟨x, -, rfl⟩ := List.mem_map.1 hi
        simpa
  simp only [Program.items, List.filter_append, hkind]
  refine ⟨?_, ?_, ?_⟩ <;> split <;> simp

variable {ls' : Literals} {ts : List Text}

/-- The declarations are read back from the text that their block leaves. -/
theorem parseAll_alike (h : p.Legible)
    (hts : List.Forall₂ (fun (i : Item) t => Alike p.literals ls' i.held t)
      (p.items.filter fun i => i.kind = .globals) ts) :
    ∃ ds', List.Forall₂ (Renumbered p.literals ls') p.declarations ds' ∧
      Declaration.parseAll (squeezeBlock (ts.foldl Source.joinGlobals [])) = .ok
      (ds'.map Declaration.reread) := by
  rw [(filter_items p).1] at hts
  split at hts
  · rename_i hnil
    cases hts
    rw [hnil]
    exact ⟨[], .nil, Declaration.parseAll_eq_ok.2 .nil⟩
  obtain ⟨t, rest, hlike, hrest, rfl⟩ := List.forall₂_cons_left_iff.1 hts
  cases hrest
  obtain ⟨lines', rfl, hlines⟩ := Alike.of_ended (show Alike p.literals ls' (ended _) t from hlike)
  obtain ⟨first, more, hfirst, hmore, rfl⟩ := List.forall₂_cons_left_iff.1 hlines
  rw [hfirst.of_nil]
  rw [List.forall₂_map_left_iff] at hmore
  obtain ⟨ds', rfl, hds, hregular⟩ :=
    exists_declarations (fun d hd => (h.declarations d hd).regular) hmore
  exact ⟨ds', hds, Declaration.parseAll_ended hregular⟩

/-- The natives are read back from the texts that their declarations leave. -/
theorem parse_natives_alike (h : p.Legible)
    (hts : List.Forall₂ (fun (i : Item) t => Alike p.literals ls' i.held t)
      (p.items.filter fun i => i.kind = .native) ts) :
    List.Forall₂ (fun t n => Native.parse (squeezeNative t) = .ok n)
    (ts.map Text.trimEnd) p.natives := by
  rw [(filter_items p).2.1, List.forall₂_map_left_iff] at hts
  rw [List.forall₂_map_left_iff]
  refine List.Forall₂.flip (List.Forall₂.imp ?_ ((List.forall₂_and_left _ _).2 ⟨h.natives, hts⟩))
  rintro n t ⟨hn, hlike⟩
  have hsolid := Native.solid_render hn.name hn.result hn.params
  have hmark : mark ∉ n.render := not_mem_native hn (by decide) (by decide) (by decide)
  have hrender : t = n.render := by
    have hheld : Item.held ⟨.native, n.inner⟩ = n.render := (Native.render_eq n).symm
    rw [hheld] at hlike
    exact hlike.eq_of_not_mem hmark
  have htrim : Text.trimEnd n.render = n.render := by
    have htrimmed := hsolid.trimmed.trim_eq
    rwa [Text.trim, hsolid.trimmed.trimStart_eq] at htrimmed
  rw [hrender, flip, htrim]
  exact Native.parse_render hn.name hn.result hn.params

/-- The functions are read back from the texts that their blocks leave. -/
theorem parse_functions_alike (h : p.Legible)
    (hts : List.Forall₂ (fun (i : Item) t => Alike p.literals ls' i.held t)
      (p.items.filter fun i => i.kind = .function) ts) :
    ∃ fs', List.Forall₂
    (fun (f f' : Function) => Alike p.literals ls' f.body f'.body ∧ f' = { f with body := f'.body })
        p.functions fs' ∧
      List.Forall₂ (fun t f' => Function.parse (squeezeBlock t) = .ok f') ts fs' := by
  rw [(filter_items p).2.2, List.forall₂_map_left_iff] at hts
  have hboth := (List.forall₂_and_left _ _).2 ⟨h.functions, hts⟩
  clear hts h
  revert hboth
  generalize p.functions = fs
  intro hboth
  induction hboth with
  | nil => exact ⟨[], .nil, .nil⟩
  | @cons f t _ _ hft _ ih =>
    obtain ⟨fs', hfs, hparse⟩ := ih
    obtain ⟨body', hlike, rfl, hregular⟩ := exists_function hft.1 hft.2
    refine ⟨{ f with body := body' } :: fs', .cons ⟨hlike, rfl⟩ hfs, .cons ?_ hparse⟩
    rw [Function.parse_inner hregular]
    conv => rhs; rw [hft.1.new]
    rfl

end Blocks

/-! ### Reading back -/

/-- The blocks of the text of a legible program. -/
theorem blocks_restore {p : Program} (h : p.Legible) (hsealed : p.Sealed) :
    ∃ all : Literals, all.size ≤ indexLimit ∧
      ∃ b, Source.blocks (p.literals.restore (collapseNewlines (assemble p))) = .ok b ∧
      b.literals = all ∧
        ∃ gs ns fs, b.globals = gs.foldl Source.joinGlobals [] ∧ b.natives = ns.map Text.trimEnd ∧
        b.functions = fs ∧
          List.Forall₂
          (fun (i : Item) t => Alike p.literals all i.held t) (p.items.filter fun i => i.kind =
            .globals) gs ∧
          List.Forall₂
          (fun (i : Item) t => Alike p.literals all i.held t) (p.items.filter fun i => i.kind =
            .native) ns ∧
          List.Forall₂ (fun (i : Item) t => Alike p.literals all i.held t)
          (p.items.filter fun i => i.kind = .function) fs := by
  have hproper := proper_items h
  have hlexemes := lexemes_restore_items h (Output.sealed_assemble hsealed).collapseNewlines
  generalize p.literals.restore (collapseNewlines (assemble p)) = text at hlexemes
  have hcollected :
      Source.collected text = Source.collectAll {} (p.items.flatMap (Item.regions p.literals)) := by
    rw [Source.collected, hlexemes, Item.regions_items hproper]
  have hlike := Item.alike_textsOf h.limit hproper (List.prefix_refl
    (Source.collectAll {} (p.items.flatMap (Item.regions p.literals))).2.texts)
  have hmarks := marks_items h
  have hsize := Item.size_collectAll {} h.limit hproper
  have hlimit := h.limit
  rw [← hcollected] at hlike hsize
  refine ⟨(Source.collected text).2, ?_, Source.Blocks.ofCollected (Source.collected text).1
    (Source.collected text).2, ?_, rfl,
    _, _, _, rfl, rfl, rfl, hlike .globals, hlike .native, hlike .function⟩
  · have hempty : ({} : Literals).size = 0 := rfl
    omega
  · rw [Source.blocks, Item.openEnd?_items hlexemes hproper]

/-- **Writing a program and reading it back says the same.** The program is read from a script
without marks, in whose squeezed texts no comment starts and whose parameter lists can be read;
its text, with newlines collapsed and literals put back, is read again, and the two programs
have the same natives, declarations and functions once their literals are put back. The length
of a script is a number of 64 bits, as that of any text in memory. -/
theorem written_readback {src : Text} {b : Source.Blocks} {p : Program} (hmark : mark ∉ src)
    (hsize : Text.byteLength src ≤ indexLimit) (hb : Source.blocks src = .ok b)
    (hp : Program.ofBlocks b = .ok p)
    (hcomments : ∀ t ∈ b.globals :: b.functions, Uncommented (squeezeBlock t))
    (hparams : ∀ f ∈ p.functions, (Parameter.parseAll? f.params).isSome = true) :
    ∃ p', readProgram (p.literals.restore (collapseNewlines (assemble p))) = .ok p' ∧
    p'.written = p.written := by
  have hlegible := legible_ofBlocks hmark hsize hb hp hcomments hparams
  have hsealed := sealed_ofBlocks (sealed_blocks hmark hb) hp
  obtain ⟨all, hlimit, b', hb', rfl, gs, ns, fs, hglobals, hnatives, hfunctions, hgs, hns, hfs⟩ :=
    blocks_restore hlegible hsealed
  obtain ⟨ds', hds, hparseAll⟩ := parseAll_alike hlegible hgs
  obtain ⟨fs', hfs', hparse⟩ := parse_functions_alike hlegible hfs
  refine ⟨⟨b'.literals, ds'.map Declaration.reread, p.natives, fs'⟩, ?_, ?_⟩
  · refine readProgram_eq_ok.2 ⟨b', hb', Program.ofBlocks_eq_ok.2 ⟨rfl, ?_, ?_, ?_⟩⟩
    · rw [hglobals]
      exact hparseAll
    · rw [hnatives]
      exact parse_natives_alike (p := p) hlegible hns
    · rw [hfunctions]
      exact hparse
  · have huses : ∀ d ∈ p.declarations, d.uses = 0 := fun d hd => (hlegible.declarations d hd).uses
    have hdeclarations :=
      map_eq_of_forall₂ ((List.forall₂_and_left _ _).2 ⟨huses, hds⟩) fun d d' hd =>
        written_reread hd.2 hd.1 hlegible.limit hlimit
    have hbodies := map_eq_of_forall₂ hfs' fun f f' hf =>
      show { f' with body := b'.literals.restore f'.body } =
          { f with body := p.literals.restore f.body } by
        rw [hf.2, hf.1.restore_eq hlegible.limit hlimit]
    simp only [Program.written, List.map_map, Function.comp_def, hbodies]
    rw [hdeclarations]

/-- A script with uneven blanks, a comment, a comment sign in a literal and an empty value. -/
def unevenScript : Text :=
  ended
    (["globals //", "string s = \"//\" ", "real array q =",
      "endglobals native N takes real a ,real b returns real",
    "function F takes real a, real b returns real", "", " set s  =a+'x'", "endfunction"].map
      String.toList)

/-- The blocks of that script. -/
def unevenBlocks : Source.Blocks where
  globals := " \nstring s = ".toList ++ Literal.placeholder 0 ++ " \nreal array q =\n".toList
  functions :=
    [" F takes real a, real b returns real\n\n set s  =a+".toList ++
      Literal.placeholder 1 ++ ['\n']]
  natives := ["native N takes real a ,real b returns real".toList]
  literals := ⟨["\"//\"".toList, "'x'".toList]⟩

/-- The program of that script. -/
def unevenProgram : Program where
  literals := unevenBlocks.literals
  declarations :=
    [⟨false, false, "string".toList, "s".toList, some (Literal.placeholder 0), 0⟩,
      ⟨false, true, "real".toList, "q".toList, some [], 0⟩]
  natives :=
    [⟨"N".toList, [⟨"real".toList, "a".toList⟩, ⟨"real".toList, "b".toList⟩], "real".toList⟩]
  functions :=
    [{ name := "F".toList
       params := "real a,real b".toList
       result := "real".toList
       body := "set s=a+".toList ++ Literal.placeholder 1
       entry := false }]

theorem blocks_unevenScript : Source.blocks unevenScript = .ok unevenBlocks := by
  have hruns : Source.openEnd? unevenScript = none ∧
      Source.Blocks.ofCollected (Source.collected unevenScript).1
        (Source.collected unevenScript).2 = unevenBlocks := by
    unfold unevenScript
    simp only [List.map_cons, List.map_nil]
    repeat rw [String.toList_ofList]
    decide +kernel
  obtain ⟨hend, hblocks⟩ := hruns
  rw [Source.blocks, hend]
  exact congrArg Except.ok hblocks

theorem ofBlocks_unevenBlocks : Program.ofBlocks unevenBlocks = .ok unevenProgram :=
  eq_ok_of_toOption (by decide +kernel)

theorem unevenScript_readback :
    (mark ∉ unevenScript ∧ Text.byteLength unevenScript ≤ indexLimit ∧
        (∀ t ∈ unevenBlocks.globals :: unevenBlocks.functions, Uncommented (squeezeBlock t)) ∧
        ∀ f ∈ unevenProgram.functions, (Parameter.parseAll? f.params).isSome = true) ∧
      ∃ p',
      readProgram (unevenProgram.literals.restore (collapseNewlines (assemble unevenProgram))) =
        .ok p' ∧
        p'.written = unevenProgram.written := by
  have hscript : mark ∉ unevenScript ∧ Text.byteLength unevenScript ≤ indexLimit := by
    unfold unevenScript
    simp only [List.map_cons, List.map_nil]
    repeat rw [String.toList_ofList]
    decide +kernel
  obtain ⟨hmark, hsize⟩ := hscript
  have hcomments : ∀ t ∈ unevenBlocks.globals :: unevenBlocks.functions,
      Uncommented (squeezeBlock t) := by
    unfold Uncommented
    decide +kernel
  have hparams : ∀ f ∈ unevenProgram.functions, (Parameter.parseAll? f.params).isSome = true := by
    decide +kernel
  exact ⟨⟨hmark, hsize, hcomments, hparams⟩,
    written_readback hmark hsize blocks_unevenScript ofBlocks_unevenBlocks hcomments hparams⟩

end ScriptMinifier
