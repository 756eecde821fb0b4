import ChainedTable.Proofs.Exchange

set_option autoImplicit false

/-!
Resizing there and back. A resize to `k` times as many buckets and back again reverses every chain
twice, and in between spreads it over `k` chains, which come back in the opposite order. So every
chain keeps its ids, grouped by the bucket that each had among the many. With `k = 1` nothing
changes.
-/

namespace ChainedTable

variable {α : Type}

theorem flatMap_eq_single {β γ : Type} {l : List β} {g : β → List γ} {j : β} (hnd : l.Nodup)
    (hj : j ∈ l) (hg : ∀ i ∈ l, i ≠ j → g i = []) : l.flatMap g = g j := by
  obtain ⟨xs, ys, rfl⟩ := List.append_of_mem hj
  obtain ⟨-, hys, hdisj⟩ := List.nodup_append.mp hnd
  have hxs : xs.flatMap g = [] := List.flatMap_eq_nil_iff.mpr fun i hi =>
    hg i (by simp [hi]) (hdisj i hi j (by simp))
  have hrest : ys.flatMap g = [] := List.flatMap_eq_nil_iff.mpr fun i hi =>
    hg i (by simp [hi]) fun hij => (List.nodup_cons.mp hys).1 (hij ▸ hi)
  rw [List.flatMap_append, List.flatMap_cons, hxs, hrest, List.nil_append, List.append_nil]

/-- Of `k` rows of `n` places only the places in column `j` hold anything. -/
theorem flatMap_column {γ : Type} {n j : Nat} {g : Nat → List γ} (hj : j < n)
    (hg : ∀ b, b % n ≠ j → g b = []) (k : Nat) :
    (List.range (n * k)).reverse.flatMap g =
      (List.range k).reverse.flatMap fun i => g (j + i * n) := by
  induction k with
  | zero => rfl
  | succ k ih =>
    have hrow : (List.range n).reverse.flatMap (fun r => g (n * k + r)) = g (n * k + j) := by
      refine flatMap_eq_single (List.nodup_reverse.mpr List.nodup_range) (by simpa using hj)
        fun r hr hrj => hg _ ?_
      have hrn : r < n := by simpa using hr
      rwa [Nat.mul_add_mod, Nat.mod_eq_of_lt hrn]
    rw [Nat.mul_succ, List.range_add, List.reverse_append, List.flatMap_append, ih,
      ← List.map_reverse, List.flatMap_map, hrow, List.range_succ, List.reverse_append,
      List.reverse_singleton, List.singleton_append, List.flatMap_cons, Nat.mul_comm n k,
      Nat.add_comm (k * n) j]

namespace Table

variable {t u v : Table α} {chains : Nat → List EntryId} {j k n : Nat}

/-- Chain `j`, grouped by the bucket that its ids have among `k` times as many, the last of these
buckets first. -/
def regrouped (t : Table α) (chains : Nat → List EntryId) (k j : Nat) : List EntryId :=
  (List.range k).reverse.flatMap fun i =>
    (chains j).filter fun id => (t.arena.hash id).toNat % (t.size * k) = j + i * t.size

structure Regrouped (t v : Table α) (chains : Nat → List EntryId) (k : Nat) : Prop where
  size : v.size = t.size
  chain : ∀ j < t.size, (v.walk j).ending = .closed ∧ (v.walk j).ids = t.regrouped chains k j
  /-- An entry on no chain keeps its link too. -/
  loose : ∀ id, (∀ i, id ∉ chains i) → v.arena.get? id = t.arena.get? id
  relinked : Relinked t v
  freeList : v.arena.freeList = t.arena.freeList

theorem ByHash.filter_linked (h : t.ByHash chains) (hj : j < t.size) :
    ((t.linked chains).filter fun id => t.bucketOf id = j) = chains j := by
  have hself : (chains j).filter (fun id => t.bucketOf id = j) = chains j :=
    List.filter_eq_self.mpr fun id hid => by simpa using h hid
  rw [linked, List.filter_flatMap,
    flatMap_eq_single List.nodup_range (List.mem_range.mpr hj) fun i _ hij => ?_, hself]
  refine List.filter_eq_nil_iff.mpr fun id hid => ?_
  simpa [h hid] using hij

/-- What is dealt out to `k` times as many chains and dealt out again. -/
theorem ByHash.dealt_dealt (h : t.ByHash chains) (hrel : Relinked t u)
    (hsize : u.size = t.size * k) (hj : j < t.size) :
    u.dealt (t.dealt chains (t.size * k)) t.size j = t.regrouped chains k j := by
  have hrow : ∀ b, b % t.size ≠ j →
      ((chains j).filter fun id => (t.arena.hash id).toNat % (t.size * k) = b) = [] := by
    intro b hb
    refine List.filter_eq_nil_iff.mpr fun id hid => ?_
    have hmod : (t.arena.hash id).toNat % t.size = j := h hid
    simp only [decide_eq_true_eq]
    rintro rfl
    exact hb (by rw [Nat.mod_mul_right_mod, hmod])
  calc u.dealt (t.dealt chains (t.size * k)) t.size j
      = (List.range (t.size * k)).reverse.flatMap fun b =>
          ((t.linked chains).filter fun id => t.bucketOf id = j).filter fun id =>
            (t.arena.hash id).toNat % (t.size * k) = b := by
        rw [dealt, linked, hsize, hrel.arena.hash, List.filter_flatMap, List.reverse_flatMap]
        congr 1
        funext b
        rw [Function.comp_apply, dealt, List.filter_reverse, List.reverse_reverse,
          List.filter_comm]
        rfl
    _ = t.regrouped chains k j := by
        rw [h.filter_linked hj, flatMap_column hj hrow]
        rfl

theorem ByHash.regrouped_one (h : t.ByHash chains) : t.regrouped chains 1 j = chains j := by
  have hself : ∀ id ∈ chains j, (t.arena.hash id).toNat % t.size = j := fun _ => h
  simpa [regrouped] using hself

theorem ByHash.dealt_dealt_one (h : t.ByHash chains) (hrel : Relinked t u)
    (hsize : u.size = t.size * 1) : u.dealt (t.dealt chains (t.size * 1)) t.size = chains := by
  funext j
  rcases Nat.lt_or_ge j t.size with hj | hj
  · rw [h.dealt_dealt hrel hsize hj, h.regrouped_one]
  · have hempty : chains j = [] := by
      rw [List.eq_nil_iff_forall_not_mem]
      exact fun id hid => Nat.not_lt_of_le hj (h hid ▸ t.hashToIndex_lt _)
    rw [hempty, List.eq_nil_iff_forall_not_mem]
    intro id hid
    have hmod := (mem_dealt.mp hid).2
    have := Nat.mod_lt (u.arena.hash id).toNat t.size_pos
    omega

/-- A resize to `k` times as many buckets and back, where every id is on the chain of its hash,
groups every chain by the bucket that its ids had among the many: the last bucket first, each group
in the old order. Nothing else changes, and with `k = 1` nothing at all. -/
theorem resize_resize_regroups [Memory] (h : t.Arranged chains) (hb : t.ByHash chains)
    (hn : Allocatable (t.size * k)) :
    ∃ u v, t.resize (t.size * k) = .ok (.ok ()) u ∧ u.resize t.size = .ok (.ok ()) v ∧
      t.Regrouped v chains k ∧ (k = 1 → t.arena.Numbered → v = t) := by
  obtain ⟨u, hu, hrelu, hsizeu, harru, hlinku⟩ := h.resize hn
  have hk : 0 < k := Nat.pos_of_mul_pos_left hn.1
  have hback : Allocatable t.size := hn.mono t.size_pos (Nat.le_mul_of_pos_right _ hk)
  obtain ⟨v, hv, hrelv, hsizev, harrv, hlinkv⟩ := harru.resize hback
  have hrel := hrelu.trans hrelv
  have hlink : ∀ id, (∀ i, id ∉ chains i) → v.arena.link id = t.arena.link id := by
    intro id hid
    rw [hlinkv id fun i hi => ?_, hlinku id hid]
    obtain ⟨i, hi⟩ := h.mem_linked.mp (mem_dealt.mp hi).1
    exact hid i hi
  refine ⟨u, v, hu, hv, ?_, ?_⟩
  · constructor
    case size => exact hsizev
    case chain =>
      intro j hj
      rw [← hb.dealt_dealt hrelu hsizeu hj]
      exact harrv.walk j
    case loose => exact fun id hid => hrel.arena.get?_eq (hlink id hid)
    case relinked => exact hrel
    case freeList => exact hrel.arena.freeList
  · rintro rfl hslots
    rw [hb.dealt_dealt_one hrelu hsizeu] at harrv
    exact h.eq_of_relinked harrv hrel hsizev hlink hslots

theorem resize_resize_regroups_shared :
    ∃ (_ : Memory) (t u v : Table UInt32) (a b c d : EntryId) (cs : List (Call UInt32)),
      create 2 .symbol = .ok t ∧
      cs = [.newEntry 6 60, .newEntry 8 80, .newEntry 2 20, .newSharedEntry 4 40, .newEntry 1 10,
        .addEntry 0 a, .addEntry 0 b, .addEntry 0 c, .addEntry 0 d] ∧
      ((t.run cs).walk 0).ids = [d, c, b, a] ∧
      (t.run cs).resize 4 = .ok (.ok ()) u ∧ u.resize 2 = .ok (.ok ()) v ∧
      (v.walk 0).ids = [c, a, d, b] ∧
      ∃ w, (t.run cs).resize 2 = .ok (.ok ()) w ∧ w.resize 2 = .ok (.ok ()) (t.run cs) := by
  let mem : Memory := .below 100 (by decide)
  let a : EntryId := .ofIndex 0 (by decide)
  let b : EntryId := .ofIndex 1 (by decide)
  let c : EntryId := .ofIndex 2 (by decide)
  let d : EntryId := .ofIndex 3 (by decide)
  let cs : List (Call UInt32) :=
    [.newEntry 6 60, .newEntry 8 80, .newEntry 2 20, .newSharedEntry 4 40, .newEntry 1 10,
      .addEntry 0 a, .addEntry 0 b, .addEntry 0 c, .addEntry 0 d]
  let t : Table UInt32 := ⟨emptyBuckets 2, 0, .empty, .symbol, .zero, by decide⟩
  have hpass : ((t.run cs).verify "symbols" fun _ => true).result.toOption = some ⟨4, 4, 0⟩ := by
    decide +kernel
  have hw := wellFormed_of_report hpass
  have hsize : (t.run cs).size = 2 := by decide +kernel
  have hdouble : (t.run cs).size * 2 = 4 := by rw [hsize]
  have hsingle : (t.run cs).size * 1 = 2 := by rw [hsize]
  obtain ⟨u, v, hu, hv, hgroups, -⟩ := resize_resize_regroups (k := 2) hw.toArranged hw.byHash
    (by decide +kernel)
  obtain ⟨u', v', hu', hv', -, hsame⟩ := resize_resize_regroups (k := 1) hw.toArranged
    hw.byHash (by decide +kernel)
  rw [hsame rfl (numbered_run Arena.numbered_empty cs), hsize] at hv'
  rw [hdouble] at hu
  rw [hsize] at hv
  rw [hsingle] at hu'
  have hregrouped : (t.run cs).regrouped (fun i => ((t.run cs).walk i).ids) 2 0 = [c, a, d, b] := by
    decide +kernel
  refine ⟨mem, t, u, v, a, b, c, d, cs, rfl, rfl, by decide +kernel, hu, hv, ?_, u', hu', hv'⟩
  rw [(hgroups.chain 0 (by decide +kernel)).2, hregrouped]

end Table

end ChainedTable
