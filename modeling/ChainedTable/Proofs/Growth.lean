import ChainedTable.Proofs.Failure
import ChainedTable.Proofs.Session
import ChainedTable.Proofs.Verification
import ChainedTable.Proofs.Table.Stock

set_option autoImplicit false

/-!
Growth. A table whose load is looked at after every insertion never needs more than one doubling to
be within its bound again. If entries are only inserted, it does not matter when the load is looked
at: the sizes that are tried are the same doublings, each is left for the same reason, and entries
are where their hashes say, so the tables come out alike but for the order on the chains.
-/

namespace ChainedTable

variable {α : Type}

namespace GrowthPolicy

def Suits (p : GrowthPolicy) (size count : Nat) : Prop :=
  p.maxSize ≤ size ∨ count / size ≤ p.load

instance (p : GrowthPolicy) (size count : Nat) : Decidable (p.Suits size count) :=
  inferInstanceAs (Decidable (p.maxSize ≤ size ∨ count / size ≤ p.load))

def grown (p : GrowthPolicy) (size count : Nat) : Nat :=
  if p.Suits size count then size else min (2 * size) p.maxSize

/-- No growth is refused for want of memory. A table that grows has at most as many buckets as
entries, so it asks for no more than twice the slots that there are. -/
def Granted [Memory] (p : GrowthPolicy) : Prop :=
  ∀ size, size ≤ p.maxSize → size ≤ 2 * maxEntries → Memory.hasRoom size

def sizes (p : GrowthPolicy) (start : Nat) : Nat → Nat
  | 0 => start
  | k + 1 => min (2 * p.sizes start k) p.maxSize

/-- `size` is the first of those sizes that suits the count. -/
def Settles (p : GrowthPolicy) (start count size : Nat) : Prop :=
  ∃ k, size = p.sizes start k ∧ p.Suits size count ∧ ∀ j < k, ¬ p.Suits (p.sizes start j) count

/-- The size for `count` entries in a table that had `start` buckets. -/
def IsFinal (p : GrowthPolicy) (start count size : Nat) : Prop :=
  if p.maxSize ≤ start then size = start
  else ∃ k, size = min p.maxSize (start * 2 ^ k) ∧ count / (start * 2 ^ k) ≤ p.load ∧
    ∀ j < k, p.load < count / (start * 2 ^ j)

variable {p : GrowthPolicy} {start size size' count k : Nat}

theorem not_suits : ¬ p.Suits size count ↔ size < p.maxSize ∧ p.load < count / size := by
  rw [Suits, not_or, Nat.not_le, Nat.not_le]

theorem Suits.of_le {count' : Nat} (h : p.Suits size count') (hle : count ≤ count') :
    p.Suits size count :=
  h.imp_right fun hl => Nat.le_trans (Nat.div_le_div_right hle) hl

theorem Suits.grown (h : p.Suits size count) (hpos : 0 < size) :
    p.Suits (p.grown size (count + 1)) (count + 1) := by
  rw [GrowthPolicy.grown]
  split
  · assumption
  · rename_i hno
    obtain ⟨hlt, -⟩ := not_suits.mp hno
    rcases Nat.le_total p.maxSize (2 * size) with hmax | hmax
    · exact .inl (Nat.le_of_eq (Nat.min_eq_right hmax).symm)
    · right
      have hload := h.resolve_left (Nat.not_le.mpr hlt)
      have hcount : count < (p.load + 1) * size :=
        (Nat.div_lt_iff_lt_mul hpos).mp (Nat.lt_succ_of_le hload)
      rw [Nat.min_eq_left hmax]
      apply Nat.le_of_lt_add_one
      rw [Nat.div_lt_iff_lt_mul (by omega), Nat.mul_left_comm]
      omega

theorem Settles.unique (h : p.Settles start count size) (h' : p.Settles start count size') :
    size = size' := by
  obtain ⟨k, rfl, hk, hbefore⟩ := h
  obtain ⟨k', rfl, hk', hbefore'⟩ := h'
  rcases Nat.lt_trichotomy k k' with hlt | rfl | hlt
  · exact absurd hk (hbefore' k hlt)
  · rfl
  · exact absurd hk' (hbefore k' hlt)

theorem Settles.grown (h : p.Settles start count size) (hpos : 0 < size) :
    p.Settles start (count + 1) (p.grown size (count + 1)) := by
  obtain ⟨k, rfl, hk, hbefore⟩ := h
  have hsuits := hk.grown hpos
  have hnone : ∀ j < k, ¬ p.Suits (p.sizes start j) (count + 1) := fun j hj hs =>
    hbefore j hj (hs.of_le (Nat.le_succ count))
  by_cases hs : p.Suits (p.sizes start k) (count + 1)
  · exact ⟨k, by rw [GrowthPolicy.grown, if_pos hs], hsuits, hnone⟩
  · refine ⟨k + 1, by rw [GrowthPolicy.grown, if_neg hs, sizes], hsuits, fun j hj => ?_⟩
    rcases Nat.lt_succ_iff_lt_or_eq.mp hj with hj | rfl
    · exact hnone j hj
    · exact hs

theorem sizes_eq (h : start < p.maxSize) (k : Nat) :
    p.sizes start k = min p.maxSize (start * 2 ^ k) := by
  induction k with
  | zero =>
    rw [sizes, pow_zero, Nat.mul_one]
    omega
  | succ k ih =>
    have hpow : start * 2 ^ (k + 1) = 2 * (start * 2 ^ k) := by
      rw [Nat.pow_succ, Nat.mul_comm (2 ^ k), Nat.mul_left_comm]
    rw [sizes, ih, hpow]
    omega

theorem exists_load_le (p : GrowthPolicy) (hpos : 0 < start) (count : Nat) :
    ∃ k, count / (start * 2 ^ k) ≤ p.load := by
  refine ⟨count, ?_⟩
  have hlt : count < start * 2 ^ count :=
    Nat.lt_of_lt_of_le Nat.lt_two_pow_self (Nat.le_mul_of_pos_left _ hpos)
  rw [Nat.div_eq_of_lt hlt]
  exact Nat.zero_le _

/-- The size at which doublings settle, in closed form. Where the bound ends them, the doublings
that the load asks for go on beyond it. -/
theorem Settles.isFinal (h : p.Settles start count size) (hpos : 0 < start) :
    p.IsFinal start count size := by
  obtain ⟨k, rfl, hk, hbefore⟩ := h
  rw [IsFinal]
  split
  · rename_i hmax
    cases k with
    | zero => rfl
    | succ k => exact absurd (.inl hmax) (hbefore 0 (Nat.zero_lt_succ k))
  · rename_i hmax
    have hsizes := sizes_eq (Nat.not_le.mp hmax)
    have hex := p.exists_load_le hpos count
    have hover : ∀ j < k, p.load < count / (start * 2 ^ j) := by
      intro j hj
      obtain ⟨hlt, hload⟩ := not_suits.mp (hbefore j hj)
      rw [hsizes] at hlt hload
      rwa [Nat.min_eq_right (by omega)] at hload
    have hle : k ≤ Nat.find hex := by
      apply Nat.le_of_not_lt
      intro hlt
      exact Nat.not_le.mpr (hover _ hlt) (Nat.find_spec hex)
    refine ⟨Nat.find hex, ?_, Nat.find_spec hex, fun j hj => Nat.not_le.mp (Nat.find_min hex hj)⟩
    rw [hsizes]
    rcases Nat.eq_or_lt_of_le hle with heq | hlt
    · rw [← heq]
    · -- the bound is met before the load is
      have hload := Nat.not_le.mp (Nat.find_min hex hlt)
      rw [hsizes] at hk
      have hmet : p.maxSize ≤ start * 2 ^ k := by
        by_contra hno
        rw [Nat.min_eq_right (by omega)] at hk
        rcases hk with hk | hk <;> omega
      have hmore : start * 2 ^ k ≤ start * 2 ^ Nat.find hex :=
        Nat.mul_le_mul_left _ (Nat.pow_le_pow_right (by omega) hle)
      omega

end GrowthPolicy

inductive Chore (α : Type) where
  | insert (hash : UInt32) (literal : α)
  | remove (id : EntryId)

namespace Table

variable {t t' u v w : Table α} {m m' : Ledger α} {p : GrowthPolicy} {n : Nat}

section
variable [SlotSize α] [Memory]

def tend (t : Table α) (p : GrowthPolicy) : Chore α → Outcome (Table α) (Reply α)
  | .insert hash literal => (t.enroll p hash literal).map .made
  | .remove id => (t.remove id).map fun found => found.elim .done .recycled

def Allows (t : Table α) : Chore α → Prop
  | .insert _ _ => 0 < t.arena.idsLeft ∧ t.traffic.added + 1 < wordLimit
  | .remove id => t.OnChain id ∧ ¬ t.IsShared id

inductive Tended (p : GrowthPolicy) (t : Table α) : Table α → Prop where
  | start : Tended p t t
  | step {u : Table α} {c : Chore α} : Tended p t u → u.Allows c → Tended p t (u.tend p c).state

def addAll (add : Table α → UInt32 → α → Outcome (Table α) EntryId) (t : Table α) :
    List (UInt32 × α) → Outcome (Table α) (List EntryId)
  | [] => .ok [] t
  | (hash, literal) :: rest =>
    (add t hash literal).bind fun id t => (addAll add t rest).map (id :: ·)

end

inductive GrowsTo [Memory] (p : GrowthPolicy) : Table α → Table α → Prop where
  | settled {t u : Table α} : t.maybeGrow p.maxSize p.load = .ok false u → GrowsTo p t u
  | again {t u v : Table α} : t.maybeGrow p.maxSize p.load = .ok true u → GrowsTo p u v →
    GrowsTo p t v

structure SameHousing (t u : Table α) : Prop where
  size : u.size = t.size
  count : u.count = t.count
  chain : ∀ i, (t.walk i).ending = .closed ∧ (u.walk i).ending = .closed ∧
    (u.walk i).ids.Perm (t.walk i).ids

/-- However these entries are inserted, looking at the load after each or only in the end, they get
the same ids and the same housing, in a table of the size that the count asks for. -/
def GrowsAlike [SlotSize α] [Memory] (t : Table α) (p : GrowthPolicy) (l : List (UInt32 × α)) :
    Prop :=
  ∃ ids u v w, t.addAll (enroll p) l = .ok ids u ∧ t.addAll insert l = .ok ids v ∧
    v.GrowsTo p w ∧ (∀ w', v.GrowsTo p w' → w' = w) ∧ u.SameHousing w ∧
    u.count = t.count + l.length ∧ p.IsFinal t.size u.count u.size

theorem GrowsTo.unique [Memory] (h : t.GrowsTo p u) (h' : t.GrowsTo p v) : v = u := by
  induction h with
  | settled hu =>
    cases h' with
    | settled hv => exact (Outcome.ok.inj (hv.symm.trans hu)).2
    | again hv _ => simp [hu] at hv
  | again hu _ ih =>
    cases h' with
    | settled hv => simp [hu] at hv
    | again hv hrest =>
      obtain ⟨-, rfl⟩ := Outcome.ok.inj (hv.symm.trans hu)
      exact ih hrest

theorem maybeGrow_of_suits [Memory] (h : p.Suits t.size t.count) :
    t.maybeGrow p.maxSize p.load = .ok false t := by
  rw [maybeGrow, growth]
  rcases h with h | h
  · simp [h]
  · by_cases hmax : p.maxSize ≤ t.size <;> simp [hmax, h]

theorem growth_of_not_suits (h : ¬ p.Suits t.size t.count) :
    t.growth p.maxSize p.load = .growTo (min (2 * t.size) p.maxSize) := by
  obtain ⟨hlt, hload⟩ := GrowthPolicy.not_suits.mp h
  rw [growth, if_neg (Nat.not_le.mpr hlt), if_neg (Nat.not_le.mpr hload)]

theorem Counted.count_le (hc : t.Counted m) : t.count ≤ maxEntries := by
  rw [hc.count]
  exact length_le_of_index_lt hc.represents.nodup_linked fun id _ => id.index_lt

/-- The buckets that the load asks for can be had. -/
theorem Counted.allocatable [Memory] (hp : p.Granted) (hc : t.Counted m)
    (hs : ¬ p.Suits t.size t.count) : Allocatable (min (2 * t.size) p.maxSize) := by
  obtain ⟨hlt, hload⟩ := GrowthPolicy.not_suits.mp hs
  have hpos := t.size_pos
  have hsize : t.size ≤ t.count := by
    by_contra hno
    rw [Nat.div_eq_of_lt (Nat.not_le.mp hno)] at hload
    exact Nat.not_lt_zero _ hload
  have hcount := hc.count_le
  exact ⟨by omega, hp _ (Nat.min_le_right _ _) (by omega)⟩

theorem Counted.maybeGrow [Memory] (hp : p.Granted) (hc : t.Counted m) :
    ∃ u m', t.maybeGrow p.maxSize p.load = .ok (decide ¬ p.Suits t.size t.count) u ∧
      u.Counted m' ∧ m.SameStock m' ∧ SameCounts t u ∧ u.size = p.grown t.size t.count := by
  by_cases hs : p.Suits t.size t.count
  · exact ⟨t, m, by simp [maybeGrow_of_suits hs, hs], hc, .refl m, ⟨rfl, rfl⟩,
      by rw [GrowthPolicy.grown, if_pos hs]⟩
  · have hn := hc.allocatable hp hs
    obtain ⟨u, hu, hsame, hru⟩ := hc.represents.maybeGrow p.maxSize p.load
    rw [growth_of_not_suits hs] at hu hru
    have hstock := Ledger.SameStock.grow m (.growTo (min (2 * t.size) p.maxSize))
    refine ⟨u, _, by simp [hu, hs, Growth.attempts], hc.same hru hsame hstock.linked, hstock,
      hsame, ?_⟩
    rw [hru.size, GrowthPolicy.grown, if_neg hs, Ledger.grow, Ledger.resizeTo, if_pos hn,
      Ledger.length_resize]

theorem Counted.sameHousing (hc : t.Counted m) (hu : u.Counted m') (hs : m.SameStock m')
    (hsize : u.size = t.size) (hcount : u.count = t.count) : t.SameHousing u where
  size := hsize
  count := hcount
  chain i := by
    obtain ⟨hend, hids⟩ := hc.represents.arranged.walk i
    obtain ⟨hend', hids'⟩ := hu.represents.arranged.walk i
    refine ⟨hend, hend', ?_⟩
    rw [hids, hids']
    exact hc.represents.chains_perm hu.represents hs hsize i

theorem Counted.growsTo [Memory] {start k : Nat} (hp : p.Granted) (hc : t.Counted m)
    (hsize : t.size = p.sizes start k)
    (hbefore : ∀ j < k, ¬ p.Suits (p.sizes start j) t.count) :
    ∃ u m', t.GrowsTo p u ∧ u.Counted m' ∧ m.SameStock m' ∧ u.count = t.count ∧
      p.Settles start t.count u.size := by
  obtain ⟨d, hd⟩ : ∃ d, p.maxSize - t.size = d := ⟨_, rfl⟩
  induction d using Nat.strongRecOn generalizing t m k with
  | ind d ih =>
    obtain ⟨u, m', hu, hcu, hstock, hcounts, hgrown⟩ := hc.maybeGrow hp
    by_cases hs : p.Suits t.size t.count
    · rw [GrowthPolicy.grown, if_pos hs] at hgrown
      exact ⟨u, m', .settled (by rw [hu]; simp [hs]), hcu, hstock, hcounts.1, k,
        hgrown.trans hsize, hgrown ▸ hs, hbefore⟩
    · obtain ⟨hlt, -⟩ := GrowthPolicy.not_suits.mp hs
      have hpos := t.size_pos
      rw [GrowthPolicy.grown, if_neg hs] at hgrown
      have hnext : u.size = p.sizes start (k + 1) := by rw [hgrown, hsize, GrowthPolicy.sizes]
      have hmore : ∀ j < k + 1, ¬ p.Suits (p.sizes start j) u.count := by
        intro j hj
        rw [hcounts.1]
        rcases Nat.lt_succ_iff_lt_or_eq.mp hj with hj | rfl
        · exact hbefore j hj
        · exact hsize ▸ hs
      obtain ⟨w, mw, hw, hcw, hstockw, hcountw, hsettles⟩ :=
        ih (p.maxSize - u.size) (by omega) hcu hnext hmore rfl
      exact ⟨w, mw, .again (by rw [hu]; simp [hs]) hw, hcw, hstock.trans hstockw,
        hcountw.trans hcounts.1, hcounts.1 ▸ hsettles⟩

section
variable [SlotSize α] [Memory] {id : EntryId} {c : Chore α} {h : UInt32} {x : α}

theorem Counted.enroll (hp : p.Granted) (hz : SlotSize.bytes α * maxBlockEntries < wordLimit)
    (hc : t.Counted m) (hm : m.take? = some (id, m')) (hroom : t.traffic.added + 1 < wordLimit)
    (h : UInt32) (x : α) :
    ∃ u m₂, t.enroll p h x = .ok id u ∧ u.Counted m₂ ∧
      ((m'.put id ⟨h, x, false⟩).link (m.index h) id).SameStock m₂ ∧
      u.size = p.grown t.size (t.count + 1) ∧ u.count = t.count + 1 ∧
      u.traffic.added = t.traffic.added + 1 := by
  obtain ⟨v, hv, hcv, -, hsize, hcount, hadded⟩ := hc.insert hz hm hroom h x
  obtain ⟨u, m₂, hu, hcu, hstock, hcounts, hgrown⟩ := hcv.maybeGrow hp
  rw [hsize, hcount] at hgrown
  refine ⟨u, m₂, ?_, hcu, hstock, hgrown, hcounts.1.trans hcount, ?_⟩
  · rw [enroll_eq, hv, Outcome.bind_ok, hu, Outcome.map_ok]
  · rw [hcounts.2, hadded]

structure Tidy (t : Table α) (p : GrowthPolicy) : Prop where
  counted : ∃ m, t.Counted m
  suits : p.Suits t.size t.count

theorem Tidy.tend (hp : p.Granted) (hz : SlotSize.bytes α * maxBlockEntries < wordLimit)
    (ht : t.Tidy p) (hc : t.Allows c) : ∃ r u, t.tend p c = .ok r u ∧ u.Tidy p := by
  obtain ⟨m, hcm⟩ := ht.counted
  have hr := hcm.represents
  cases c with
  | insert h x =>
    obtain ⟨hleft, hroom⟩ := hc
    rw [hr.idsLeft] at hleft
    obtain ⟨id, m', hm⟩ := Ledger.exists_take? hleft
    obtain ⟨u, m₂, hu, hcu, -, hsize, hcount, -⟩ := hcm.enroll hp hz hm hroom h x
    refine ⟨.made id, u, by simp [Table.tend, hu], ⟨m₂, hcu⟩, ?_⟩
    rw [hsize, hcount]
    exact ht.suits.grown t.size_pos
  | remove id =>
    obtain ⟨hlinked, hshared⟩ := hc
    rw [hr.onChain_iff] at hlinked
    obtain ⟨⟨hash, literal, shared⟩, hlookup⟩ := hr.live_of_linked hlinked
    obtain rfl : shared = false := hr.shared_of_not hlookup hshared
    obtain ⟨u, hu, hcu, -, hsize, hcount, -⟩ := hcm.remove hlinked hlookup
    refine ⟨.recycled literal, u, by simp [Table.tend, hu], ⟨_, hcu⟩, ?_⟩
    rw [hsize, hcount]
    exact ht.suits.of_le (Nat.sub_le _ _)

theorem Tidy.tended (hp : p.Granted) (hz : SlotSize.bytes α * maxBlockEntries < wordLimit)
    (ht : t.Tidy p) (hu : t.Tended p u) : u.Tidy p := by
  induction hu with
  | start => exact ht
  | step _ hc ih =>
    obtain ⟨r, v, hv, htv⟩ := ih.tend hp hz hc
    rwa [hv, Outcome.state_ok]

/-- Two tables with one stock, of which only the first grows, give out the same ids. -/
theorem Counted.addAll (hp : p.Granted) (hz : SlotSize.bytes α * maxBlockEntries < wordLimit)
    {start : Nat} {l : List (UInt32 × α)} (hc : t.Counted m) (hc' : t'.Counted m')
    (hstock : m.SameStock m') (hcount : t'.count = t.count)
    (hadded : t'.traffic.added = t.traffic.added)
    (hsettles : p.Settles start t.count t.size)
    (hleft : l.length ≤ t.arena.idsLeft) (hroom : t.traffic.added + l.length < wordLimit) :
    ∃ ids u v mu mv, t.addAll (Table.enroll p) l = .ok ids u ∧
      t'.addAll Table.insert l = .ok ids v ∧
      u.Counted mu ∧ v.Counted mv ∧ mu.SameStock mv ∧ v.size = t'.size ∧
      u.count = t.count + l.length ∧ v.count = u.count ∧ p.Settles start u.count u.size := by
  induction l generalizing t t' m m' with
  | nil => exact ⟨[], t, t', m, m', rfl, rfl, hc, hc', hstock, rfl, rfl, hcount, hsettles⟩
  | cons y l ih =>
    obtain ⟨h, x⟩ := y
    rw [List.length_cons] at hleft hroom
    rw [hc.represents.idsLeft] at hleft
    obtain ⟨id, m₁, hm⟩ := Ledger.exists_take? (m := m) (by omega)
    -- one stock gives out one id, and the entry made in both leaves one stock again
    obtain ⟨m₁', hm', hstock₁⟩ := hstock.take? hm
    obtain ⟨u, mu, hu, hcu, hstocku, hsizeu, hcountu, haddedu⟩ :=
      hc.enroll hp hz hm (by omega) h x
    obtain ⟨v, hv, hcv, -, hsizev, hcountv, haddedv⟩ := hc'.insert hz hm' (by omega) h x
    have hlt : m.index h < m₁.buckets.length := by
      rw [(Ledger.take?_same hm).1]
      exact hc.represents.index_lt h
    have hlt' : m'.index h < m₁'.buckets.length := by
      rw [(Ledger.take?_same hm').1]
      exact hc'.represents.index_lt h
    have hboth := hstocku.symm.trans (hstock₁.insert (c := ⟨h, x, false⟩) hlt hlt')
    have hleftu : l.length ≤ u.arena.idsLeft := by
      have hone := Ledger.idsLeft_take? hm
      rw [hcu.represents.idsLeft, hstocku.idsLeft]
      change l.length ≤ m₁.idsLeft
      omega
    obtain ⟨ids, u', v', mu', mv', hu', hv', hcu', hcv', hstock', hsize', hcount', hsame',
      hsettles'⟩ := ih hcu hcv hboth (by omega) (by omega)
        (by rw [hsizeu, hcountu]; exact hsettles.grown t.size_pos) hleftu (by omega)
    refine ⟨id :: ids, u', v', mu', mv', ?_, ?_, hcu', hcv', hstock', hsize'.trans hsizev, ?_,
      hsame', hsettles'⟩
    · simp [Table.addAll, hu, hu']
    · simp [Table.addAll, hv, hv']
    · rw [hcount', hcountu, List.length_cons]
      omega

theorem Tidy.growsAlike (hp : p.Granted) (hz : SlotSize.bytes α * maxBlockEntries < wordLimit)
    (ht : t.Tidy p) {l : List (UInt32 × α)} (hleft : l.length ≤ t.arena.idsLeft)
    (hroom : t.traffic.added + l.length < wordLimit) : t.GrowsAlike p l := by
  obtain ⟨m, hc⟩ := ht.counted
  have hsettles : p.Settles t.size t.count t.size := ⟨0, rfl, ht.suits, by simp⟩
  obtain ⟨ids, u, v, mu, mv, hu, hv, hcu, hcv, hstock, hsize, hcount, hsame, hsettlesu⟩ :=
    hc.addAll hp hz hc (.refl m) rfl rfl hsettles hleft hroom
  have hfirst : v.size = p.sizes t.size 0 := hsize
  obtain ⟨w, mw, hw, hcw, hstockw, hcountw, hsettlesw⟩ :=
    hcv.growsTo hp hfirst (by simp)
  rw [hsame] at hsettlesw
  refine ⟨ids, u, v, w, hu, hv, hw, fun w' hw' => hw.unique hw', ?_, hcount,
    hsettlesu.isFinal t.size_pos⟩
  exact hcu.sameHousing hcw (hstock.trans hstockw) (hsettlesw.unique hsettlesu)
    (hcountw.trans hsame)

/-- In every state that a run of calls leaves, if the table is well formed, within its load, and no
slot was freed twice: inserting with a look at the load after each entry, and removing, keeps the
load within its bound and always succeeds; and it does not matter whether the load is looked at
after each insertion or in the end. -/
theorem load_kept {tag : MemoryTag} {cs : List (Call α)} {chains : Nat → List EntryId}
    (hp : p.Granted) (hz : SlotSize.bytes α * maxBlockEntries < wordLimit)
    (ht : create n tag = .ok t) (honce : ∀ id, .error (.freedTwice id) ∉ t.results cs)
    (hadds : t.addsMade cs < wordLimit) (hw : (t.run cs).WellFormed chains)
    (hload : p.Suits (t.run cs).size (t.run cs).count) :
    (∀ u, (t.run cs).Tended p u → p.Suits u.size u.count ∧
      ∀ c, u.Allows c → ∃ r v, u.tend p c = .ok r v) ∧
    ∀ l : List (UInt32 × α), l.length ≤ (t.run cs).arena.idsLeft →
      t.addsMade cs + l.length < wordLimit → (t.run cs).GrowsAlike p l := by
  obtain ⟨hr, hb, -, hzero⟩ := represents_create ht
  have hroom : t.traffic.added + t.addsMade cs < wordLimit := by omega
  obtain ⟨hbal, hadded⟩ := balanced_run hb hroom
  obtain ⟨free, hthr⟩ := threaded_run hr.threaded honce
  obtain ⟨m, hrm, hlinked⟩ := hw.toArranged.represents hthr fun {i id} hid => by
    obtain ⟨e, he⟩ := hw.live hid
    rw [bucketOf_of_get? he, hw.placed hid he]
  have htidy : (t.run cs).Tidy p :=
    ⟨⟨m, hrm, hbal, by rw [hw.counted, hlinked]⟩, hload⟩
  refine ⟨fun u hu => ⟨(htidy.tended hp hz hu).suits, fun c hc => ?_⟩, fun l hleft hroom => ?_⟩
  · obtain ⟨r, v, hv, -⟩ := (htidy.tended hp hz hu).tend hp hz hc
    exact ⟨r, v, hv⟩
  · exact htidy.growsAlike hp hz hleft (by omega)

end

theorem load_kept_doubling :
    ∃ (_ : Memory) (t : Table UInt32) (a : EntryId) (cs : List (Call UInt32))
      (l : List (UInt32 × UInt32)),
      create 2 .symbol = .ok t ∧ cs = [.newEntry 1 10, .addEntry 1 a] ∧
      l = [(5, 50), (6, 60), (1, 10), (9, 90), (13, 30)] ∧
      (∀ u, (t.run cs).Tended ⟨7, 0⟩ u → GrowthPolicy.Suits ⟨7, 0⟩ u.size u.count ∧
        ∀ c, u.Allows c → ∃ r v, u.tend ⟨7, 0⟩ c = .ok r v) ∧
      (t.run cs).Allows (.remove a) ∧ (t.run cs).GrowsAlike ⟨7, 0⟩ l := by
  let mem : Memory := .below 8 (by decide)
  have hp : GrowthPolicy.Granted ⟨7, 0⟩ := fun _ hsize _ => decide_eq_true (Nat.lt_succ_of_le hsize)
  let a : EntryId := .ofIndex 0 (by decide)
  let cs : List (Call UInt32) := [.newEntry 1 10, .addEntry 1 a]
  let l : List (UInt32 × UInt32) := [(5, 50), (6, 60), (1, 10), (9, 90), (13, 30)]
  let t : Table UInt32 := ⟨emptyBuckets 2, 0, .empty, .symbol, .zero, by decide⟩
  have ht : create 2 .symbol = .ok t := rfl
  have hok : ((t.results cs).all fun r => r.toOption.isSome) = true := by decide +kernel
  have honce : ∀ id, .error (.freedTwice id) ∉ t.results cs := fun id =>
    error_not_mem_of_all_ok hok (.freedTwice id)
  have hpass : ((t.run cs).verify "symbols" fun _ => true).result.toOption = some ⟨1, 1, 1⟩ := by
    decide +kernel
  have hlinked : (t.run cs).Allows (.remove a) := by
    refine ⟨⟨1, by decide +kernel⟩, ?_⟩
    rintro ⟨e, he, hs⟩
    have hshared : ((t.run cs).arena.get? a).map Entry.isShared = some false := by
      decide +kernel
    simp [he, hs] at hshared
  obtain ⟨hkept, halike⟩ := load_kept hp (by decide) ht honce (by decide +kernel)
    (wellFormed_of_report hpass) (by decide +kernel)
  exact ⟨mem, t, a, cs, l, ht, rfl, rfl, hkept, hlinked,
    halike l (by decide +kernel) (by decide +kernel)⟩

end Table

end ChainedTable
