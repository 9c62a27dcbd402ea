import ScriptMinifier.Naming.Global
import ScriptMinifier.Proofs.Naming.Dealing
import ScriptMinifier.Proofs.Ranking

/-! The order in which names are dealt.

Items are dealt names in the order of their counts, and the names that a pool deals never get
shorter. So an item that counts more never gets the longer name (`length_le_of_deal_byCount`),
and items that count the same are dealt names in the order in which they are listed
(`filter_byCount`). -/
namespace ScriptMinifier.Naming

variable {items : List (Text × Int)}

theorem perm_ranked_count (items : List (Text × Int)) :
    (ranked (fun a b => decide (b.2 ≤ a.2)) items).Perm items := by
  rw [ranked_eq_insertionSort]
  exact List.perm_insertionSort _ items

theorem byCount_perm (items : List (Text × Int)) : (byCount items).Perm (items.map Prod.fst) :=
  (perm_ranked_count items).map Prod.fst

theorem mem_byCount {name : Text} : name ∈ byCount items ↔ name ∈ items.map Prod.fst :=
  (byCount_perm items).mem_iff

/-- Counts fall along the ranked items. -/
theorem pairwise_ranked_count (items : List (Text × Int)) :
    (ranked (fun a b => decide (b.2 ≤ a.2)) items).Pairwise fun a b => b.2 ≤ a.2 := by
  have htotal : Std.Total fun a b : Text × Int => b.2 ≤ a.2 := ⟨fun a b => Int.le_total b.2 a.2⟩
  have htrans : IsTrans (Text × Int) fun a b => b.2 ≤ a.2 :=
    ⟨fun a b c hab hbc => Int.le_trans hbc hab⟩
  rw [ranked_eq_insertionSort]
  exact List.pairwise_insertionSort _ items

/-- Items of one count stay in the order in which they are listed. -/
theorem filter_byCount (hnodup : (items.map Prod.fst).Nodup) (count : Int) :
    (byCount items).filter ((items.filter (·.2 = count)).map Prod.fst).contains =
      (items.filter (·.2 = count)).map Prod.fst := by
  have hranked : (ranked (fun a b => decide (b.2 ≤ a.2)) items).filter (·.2 = count) =
      items.filter (·.2 = count) := by
    refine filter_ranked (fun a b ha hb => ?_) items
    rw [of_decide_eq_true ha, of_decide_eq_true hb]
    exact decide_eq_true (Int.le_refl count)
  -- A name tells its item, so names can be filtered where items are.
  have hnames : ∀ item ∈ ranked (fun a b => decide (b.2 ≤ a.2)) items,
      ((items.filter (·.2 = count)).map Prod.fst).contains item.1 = decide (item.2 = count) := by
    intro item hitem
    have hlisted : item ∈ items := (perm_ranked_count items).mem_iff.1 hitem
    rw [Bool.eq_iff_iff, List.contains_iff_mem, decide_eq_true_iff, List.mem_map]
    constructor
    · rintro ⟨other, hother, hname⟩
      obtain ⟨hmem, hcount⟩ := List.mem_filter.1 hother
      rw [← List.inj_on_of_nodup_map hnodup hmem hlisted hname]
      exact of_decide_eq_true hcount
    · intro hcount
      exact ⟨item, List.mem_filter.2 ⟨hlisted, decide_eq_true hcount⟩, rfl⟩
  rw [byCount, List.filter_map, Function.comp_def, List.filter_congr hnames, hranked]

/-! ### Lengths -/

/-- Of two things dealt in a row, the one that counts more has the name that is not longer. -/
theorem length_le_of_mem_zip {order : List (Text × Int)} {names : List Text}
    (hlength : order.length = names.length)
    (hcounts : order.Pairwise fun a b => b.2 ≤ a.2)
    (hnames : names.Pairwise fun a b => a.length ≤ b.length)
    {a b : Text × Int} {a' b' : Text} (ha : (a, a') ∈ order.zip names)
    (hb : (b, b') ∈ order.zip names) (hlt : b.2 < a.2) : a'.length ≤ b'.length := by
  have hfall : (order.zip names).Pairwise fun x y => y.1.2 ≤ x.1.2 := by
    rw [← List.map_fst_zip (Nat.le_of_eq hlength), List.pairwise_map] at hcounts
    exact hcounts
  have hrise : (order.zip names).Pairwise fun x y => x.2.length ≤ y.2.length := by
    rw [← List.map_snd_zip (Nat.le_of_eq hlength.symm), List.pairwise_map] at hnames
    exact hnames
  obtain ⟨i, hi, hgeti⟩ := List.mem_iff_getElem.1 ha
  obtain ⟨j, hj, hgetj⟩ := List.mem_iff_getElem.1 hb
  -- The one that counts more stands first, since counts fall.
  have hij : i < j := by
    by_contra hge
    rcases Nat.eq_or_lt_of_le (Nat.not_lt.1 hge) with rfl | hji
    · have heq : (a, a') = (b, b') := hgeti.symm.trans hgetj
      obtain ⟨rfl, -⟩ := Prod.ext_iff.1 heq
      exact Int.lt_irrefl _ hlt
    · have hle := List.pairwise_iff_getElem.1 hfall j i hj hi hji
      rw [hgeti, hgetj] at hle
      exact Int.not_le.2 hlt hle
  have hle := List.pairwise_iff_getElem.1 hrise i j hi hj hij
  rw [hgeti, hgetj] at hle
  exact hle

/-- An item that counts more never gets the longer name. -/
theorem length_le_of_deal_byCount {pool : Pool} {a a' b b' : Text}
    (ha : (a, a') ∈ (pool.deal (byCount items)).1) (hb : (b, b') ∈ (pool.deal (byCount items)).1) :
    ∃ m n, (a, m) ∈ items ∧ (b, n) ∈ items ∧ (n < m → a'.length ≤ b'.length) := by
  have hpair : ∀ old new, (old, new) ∈ (pool.deal (byCount items)).1 → ∃ item ∈ items,
      item.1 = old ∧
      (item, new) ∈ (ranked (fun a b => decide (b.2 ≤ a.2)) items).zip
        (pool.drawMany (byCount items).length).1 := by
    intro old new h
    rw [Pool.deal_fst, byCount, List.zip_map_left] at h
    obtain ⟨⟨item, name⟩, hmem, heq⟩ := List.mem_map.1 h
    obtain ⟨hname, rfl⟩ := Prod.ext_iff.1 heq
    exact ⟨item, (perm_ranked_count items).mem_iff.1 (List.of_mem_zip hmem).1, hname, hmem⟩
  obtain ⟨x, hx, rfl, hxzip⟩ := hpair a a' ha
  obtain ⟨y, hy, rfl, hyzip⟩ := hpair b b' hb
  refine ⟨x.2, y.2, hx, hy, fun hlt => ?_⟩
  refine length_le_of_mem_zip ?_ (pairwise_ranked_count items) (Pool.pairwise_length_drawMany _ _)
    hxzip hyzip hlt
  rw [Pool.length_drawMany, byCount, List.length_map]

end ScriptMinifier.Naming
