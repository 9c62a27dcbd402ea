import ScriptMinifier.Proofs.Literal.Stages
import ScriptMinifier.Proofs.Output.WrittenBlocks

/-! Reading a written program.

What a program is written as is read as a program again (`exists_readFrom`). It declares the same
natives, the same functions and the same constants and globals, in order. Values and bodies are
what is read again of them, squeezed and trimmed. -/
namespace ScriptMinifier

open Layout (squeezeBlock)
open Literal (indexLimit)
open Output (emit)
open Source (ClosedBlock collectBody)
open Syntax (Declaration Function Native Header)
open Text (ended)

/-- What is read where a declaration was written. -/
def DeclarationRead (ls ls' : Literals) (d d' : Declaration) : Prop :=
  ∃ v, ValueRead ls ls' d.value v ∧ d' = d.readWith v

/-- What is read where a function was written. -/
def FunctionRead (ls ls' : Literals) (f f' : Function) : Prop :=
  ∃ lines, List.Forall₂ (Reread ls ls') f.writtenLines lines ∧
    f' = .new f.name f.params f.result (Text.trimEnd (squeezeBlock (ended lines)))

/-- The program `q` is what is read where `p` was written. -/
structure ReadFrom (p q : Program) : Prop where
  declarations :
    List.Forall₂ (DeclarationRead p.literals q.literals) p.declarations q.declarations
  natives : q.natives = p.natives
  functions : List.Forall₂ (FunctionRead p.literals q.literals) p.functions q.functions

section Reading

variable {p : Program} {gs ns fs : List ClosedBlock} {ts : List Text} {all : Literals}

/-- The blocks of a kind among the blocks of a program. -/
theorem filter_blocks (hgs : ∀ b ∈ gs, b.kind = .globals) (hns : ∀ b ∈ ns, b.kind = .native)
    (hfs : ∀ b ∈ fs, b.kind = .function) :
    (gs ++ (ns ++ fs)).filter (fun b => b.kind = .globals) = gs ∧
      (gs ++ (ns ++ fs)).filter (fun b => b.kind = .native) = ns ∧
      (gs ++ (ns ++ fs)).filter (fun b => b.kind = .function) = fs := by
  have hkind : ∀ (bs : List ClosedBlock) (kind kind' : Source.BlockKind),
      (∀ b ∈ bs, b.kind = kind) →
        bs.filter (fun b => b.kind = kind') = if kind = kind' then bs else [] := by
    intro bs kind kind' hbs
    split
    · rename_i heq
      exact List.filter_eq_self.2 fun b hb => by simpa using (hbs b hb).trans heq
    · rename_i hne
      exact List.filter_eq_nil_iff.2 fun b hb => by simpa [hbs b hb] using hne
  simp only [List.filter_append, hkind _ _ _ hgs, hkind _ _ _ hns, hkind _ _ _ hfs]
  exact ⟨by simp, by simp, by simp⟩

/-- The text that a block leaves, where `all` goes on from the table that it leaves. -/
def LeftBy (all : Literals) (b : ClosedBlock) (t : Text) : Prop :=
  ∃ lits, (collectBody lits b.body).2.texts <+: all.texts ∧ t = (b.region.collect lits).1

theorem prefix_collectAll (lits : Literals) (bs : List ClosedBlock) :
    lits.texts <+: (Source.collectAll lits (bs.flatMap ClosedBlock.regions)).2.texts := by
  induction bs generalizing lits with
  | nil => exact List.prefix_refl _
  | cons b rest ih =>
    rw [List.flatMap_cons, (ClosedBlock.collectAll_cons lits b _).1, ClosedBlock.collect_region]
    exact (prefix_collectBody lits b.body).trans (ih _)

/-- Every block leaves a text, and the texts of one kind stand in the order of their blocks. -/
theorem textsOf_leftBy {bs : List ClosedBlock} {lits : Literals} (kind : Source.BlockKind)
    (hall : (Source.collectAll lits (bs.flatMap ClosedBlock.regions)).2.texts <+: all.texts) :
    List.Forall₂ (LeftBy all) (bs.filter fun b => b.kind = kind)
      (Source.textsOf kind (Source.collectAll lits (bs.flatMap ClosedBlock.regions)).1) := by
  induction bs generalizing lits with
  | nil => exact .nil
  | cons b more ih =>
    rw [List.flatMap_cons] at hall ⊢
    obtain ⟨htable, htexts⟩ := ClosedBlock.collectAll_cons lits b (more.flatMap ClosedBlock.regions)
    rw [htable] at hall
    have hfirst := (prefix_collectAll (b.region.collect lits).2 more).trans hall
    rw [ClosedBlock.collect_region] at hfirst
    rw [htexts kind]
    by_cases hkind : b.kind = kind
    · rw [List.filter_cons_of_pos (by simpa using hkind), if_pos hkind]
      exact .cons ⟨lits, hfirst, rfl⟩ (ih hall)
    · rw [List.filter_cons_of_neg (by simpa using hkind), if_neg hkind]
      exact ih hall

theorem parseAll_leftBy (hp : ∀ d ∈ p.declarations, d.signature.Regular)
    (hgs : List.Forall₂ (DeclarationsBlock p.literals) p.declarationBlocks gs)
    (hts : List.Forall₂ (LeftBy all) gs ts) :
    ∃ ds, Declaration.parseAll (squeezeBlock (ts.foldl Source.joinGlobals [])) = .ok ds ∧
      List.Forall₂ (DeclarationRead p.literals all) p.declarations ds := by
  rw [Program.declarationBlocks] at hgs
  split at hgs
  · rename_i hnil
    cases hgs
    cases hts
    exact ⟨[], Declaration.parseAll_eq_ok.2 .nil, by rw [hnil]; exact .nil⟩
  · obtain ⟨b, rest, hb, hrest, rfl⟩ := List.forall₂_cons_left_iff.1 hgs
    cases hrest
    obtain ⟨t, rest, ⟨lits, hall, rfl⟩, hrest, rfl⟩ := List.forall₂_cons_left_iff.1 hts
    cases hrest
    obtain ⟨lines, hlines, htext⟩ := hb.text lits all hall
    have hleft : (b.region.collect lits).1 = ended ([] :: lines) := by
      rw [ClosedBlock.collect_region, if_neg (by rw [hb.kind]; decide), htext]
      rfl
    rw [List.foldl_cons, List.foldl_nil, Source.joinGlobals, if_pos rfl, hleft]
    exact Declaration.parseAll_of_lines hp hlines

theorem parse_natives_leftBy (hp : ∀ n ∈ p.natives, n.Legible)
    (hns : List.Forall₂ NativeBlock p.natives ns) (hts : List.Forall₂ (LeftBy all) ns ts) :
    List.Forall₂ (fun t n => Native.parse (Layout.squeezeNative t) = .ok n)
      (ts.map Text.trimEnd) p.natives := by
  rw [List.forall₂_map_left_iff]
  refine List.Forall₂.flip (forall₂_trans ?_ ((List.forall₂_and_left _ _).2 ⟨hp, hns⟩) hts)
  rintro n b _ ⟨hn, hb⟩ ⟨lits, -, rfl⟩
  have hsolid := Native.solid_render hn.name hn.result hn.params
  have htrim : Text.trimEnd n.render = n.render := by
    have htrimmed := hsolid.trimmed.trim_eq
    rwa [Text.trim, hsolid.trimmed.trimStart_eq] at htrimmed
  have hleft : (b.region.collect lits).1 = n.render := by
    rw [ClosedBlock.collect_region, if_pos hb.kind, hb.kind, hb.text, Native.render_eq]
    rfl
  rw [flip, hleft, htrim]
  exact Native.parse_render hn.name hn.result hn.params

theorem parse_functions_leftBy (hp : ∀ f ∈ p.functions, f.Enclosed ∧ Headed f)
    (hfs : List.Forall₂ (FunctionBlock p.literals) p.functions fs)
    (hts : List.Forall₂ (LeftBy all) fs ts) :
    ∃ fs', List.Forall₂ (fun t f => Function.parse (squeezeBlock t) = .ok f) ts fs' ∧
      List.Forall₂ (FunctionRead p.literals all) p.functions fs' := by
  have hall : List.Forall₂ (fun f t => ∃ f', Function.parse (squeezeBlock t) = .ok f' ∧
      FunctionRead p.literals all f f') p.functions ts := by
    refine forall₂_trans ?_ ((List.forall₂_and_left _ _).2 ⟨hp, hfs⟩) hts
    rintro f b _ ⟨⟨henclosed, hheaded⟩, hb⟩ ⟨lits, hall, rfl⟩
    obtain ⟨lines, hlines, htext⟩ := hb.text lits all hall
    have hleft : (b.region.collect lits).1 = ' ' :: f.header.text ++ '\n' :: ended lines := by
      rw [ClosedBlock.collect_region, if_neg (by rw [hb.kind]; decide), htext]
      rfl
    rw [hleft]
    exact ⟨_, Function.parse_opening henclosed.name.ident henclosed.result.ident hheaded.solid
      hheaded.names.newline_not_mem _, lines, hlines, rfl⟩
  clear hp hfs hts
  generalize p.functions = written at hall ⊢
  induction hall with
  | nil => exact ⟨[], .nil, .nil⟩
  | cons hfirst _ ih =>
    obtain ⟨f', hparse, hread⟩ := hfirst
    obtain ⟨fs', hparses, hreads⟩ := ih
    exact ⟨f' :: fs', .cons hparse hparses, .cons hread hreads⟩

/-- What is written can be read again, as a program that declares the same. -/
theorem exists_readFrom (hlimit : p.literals.size ≤ indexLimit) (h : p.Enclosed)
    (hlisted : ∀ f ∈ p.functions, Naming.Listed f) (hsealed : p.Sealed) :
    ∃ q, readProgram (emit p) = .ok q ∧ ReadFrom p q := by
  have hheaded : ∀ f ∈ p.functions, Headed f :=
    fun f hf => headed_of_listed (h.functions f hf) (hlisted f hf)
  obtain ⟨gs, ns, fs, hlexemes, hproper, hgs, hns, hfs⟩ := exists_blocks hlimit h hheaded hsealed
  have hkinds := filter_blocks
    (fun b (hb : b ∈ gs) => let ⟨_, _, hb⟩ := exists_of_mem_right hgs hb; hb.kind)
    (fun b (hb : b ∈ ns) => let ⟨_, _, hb⟩ := exists_of_mem_right hns hb; hb.kind)
    (fun b (hb : b ∈ fs) => let ⟨_, _, hb⟩ := exists_of_mem_right hfs hb; hb.kind)
  have htexts (kind : Source.BlockKind) :
      List.Forall₂
        (LeftBy (Source.collectAll {} ((gs ++ (ns ++ fs)).flatMap ClosedBlock.regions)).2)
        ((gs ++ (ns ++ fs)).filter fun b => b.kind = kind) _ :=
    textsOf_leftBy kind (List.prefix_refl _)
  have hglobals := htexts .globals
  have hnatives := htexts .native
  have hfunctions := htexts .function
  rw [hkinds.1] at hglobals
  rw [hkinds.2.1] at hnatives
  rw [hkinds.2.2] at hfunctions
  have hregular : ∀ d ∈ p.declarations, d.signature.Regular := fun d hd =>
    ⟨(h.declarations d hd).type, (h.declarations d hd).name.ident, nofun, nofun, nofun⟩
  obtain ⟨ds, hparseAll, hds⟩ := parseAll_leftBy hregular hgs hglobals
  obtain ⟨fs', hparse, hfs'⟩ := parse_functions_leftBy
    (fun f hf => ⟨h.functions f hf, hheaded f hf⟩) hfs hfunctions
  refine ⟨⟨_, ds, p.natives, fs'⟩, readProgram_eq_ok.2 ⟨_, ClosedBlock.blocks_all hlexemes hproper,
    Program.ofBlocks_eq_ok.2 ⟨rfl, hparseAll, parse_natives_leftBy h.natives hns hnatives, hparse⟩⟩,
    hds, rfl, hfs'⟩

end Reading
end ScriptMinifier
