import ChainedTable.Proofs.Table.Calls
import ChainedTable.Proofs.Table.Migration
import ChainedTable.Literal
import ChainedTable.Table.Verification

set_option autoImplicit false

/-!
Verification is sound and complete. A table passes exactly when it is well formed and its literals
are accepted; that no id is on two chains is never looked at, and follows from the placement. The
test against the live count does not fail a good table, since the account of the arena holds in
every state that a run of calls can leave.
-/

namespace ChainedTable

variable {α : Type}

def Hook.Approves (hook : Hook α) : Array α → List α → Prop
  | _, [] => True
  | shown, x :: xs => hook shown x = true ∧ hook.Approves (shown.push x) xs

theorem Hook.approves_append {hook : Hook α} {shown : Array α} {xs ys : List α} :
    hook.Approves shown (xs ++ ys) ↔ hook.Approves shown xs ∧ hook.Approves (shown ++ xs) ys := by
  induction xs generalizing shown with
  | nil => simp [Approves]
  | cons x xs ih => simp [Approves, ih, and_assoc]

theorem Hook.approves_forgetful {accept : α → Bool} {shown : Array α} {xs : List α} :
    Hook.Approves (fun _ => accept) shown xs ↔ ∀ x ∈ xs, accept x = true := by
  induction xs generalizing shown with
  | nil => simp [Approves]
  | cons x xs ih => simp [Approves, ih]

namespace Table

/-- The table whose chains are these, each entry once, on the chain of its hash, and counted. -/
structure WellFormed (t : Table α) (chains : Nat → List EntryId) : Prop extends
    t.Arranged chains where
  once : ∀ i, (chains i).Nodup
  placed : ∀ {i : Nat} {id : EntryId} {e : Entry α}, id ∈ chains i → t.arena.get? id = some e →
    t.hashToIndex e.hash = i
  counted : t.count = (t.linked chains).length

def ByHash (t : Table α) (chains : Nat → List EntryId) : Prop :=
  ∀ {i : Nat} {id : EntryId}, id ∈ chains i → t.bucketOf id = i

def Accepted (t : Table α) (accept : α → Bool) (chains : Nat → List EntryId) : Prop :=
  ∀ {i : Nat} {id : EntryId} {e : Entry α}, id ∈ chains i → t.arena.get? id = some e →
    accept e.literal = true

structure Reports (t : Table α) (r : Report) (shown : Array α) : Prop where
  elementCount : r.elementCount = t.count
  longest : ∀ i < t.size, (t.walk i).ids.length ≤ r.maxBucketCount
  index_lt : r.maxBucketIndex < t.size
  attained : (t.walk r.maxBucketIndex).ids.length = r.maxBucketCount
  first : ∀ i < r.maxBucketIndex, (t.walk i).ids.length < r.maxBucketCount
  shown_size : shown.size = t.count
  shown_entries : ∀ limit, ∃ l, t.entries limit = .ok l ∧
    l.map (fun x => x.2.literal) = shown.toList.take limit

def literalsOf (t : Table α) (is : List Nat) : List α :=
  is.flatMap fun i => (t.walk i).visited.map fun x => x.2.literal

def Passes (t : Table α) (accept : α → Bool) (i : Nat) (x : Linked α) : Prop :=
  accept x.2.literal = true ∧ t.hashToIndex x.2.hash = i

def Placed (t : Table α) (k : Nat) : Prop :=
  (t.walk k).ending = .closed ∧ ∀ x ∈ (t.walk k).visited, t.hashToIndex x.2.hash = k

variable {t : Table α} {accept : α → Bool} {hook : Hook α} {name : String} {i n : Nat}
  {l : List (Linked α)} {shown shown' : Array α} {is pre post : List Nat} {report r : Report}
  {chains : Nat → List EntryId}

theorem WellFormed.byHash (h : t.WellFormed chains) : t.ByHash chains := by
  intro i id hid
  obtain ⟨e, he⟩ := h.live hid
  rw [bucketOf_of_get? he]
  exact h.placed hid he

theorem Arranged.entries_literals (h : t.Arranged chains) (limit : Nat) :
    ∃ l, t.entries limit = .ok l ∧
      l.map (fun x => x.2.literal) = (t.literalsOf (List.range t.size)).take limit := by
  refine ⟨t.traversal.visited.take limit, ?_, ?_⟩
  · rw [entries_eq, Walk.take_closed (by rw [h.traversal_eq])]
  · rw [List.map_take, h.traversal_eq, literalsOf, List.map_flatMap]

theorem Arranged.length_literals (h : t.Arranged chains) :
    (t.literalsOf (List.range t.size)).length = (t.linked chains).length := by
  rw [linked, ← h.traversal_ids, Walk.ids, List.length_map, h.traversal_eq, literalsOf]
  simp only [List.length_flatMap, List.length_map]

theorem inspect_ok_iff : t.inspect hook i n l shown = (.ok (), shown') ↔
    hook.Approves shown (l.map fun x => x.2.literal) ∧ (∀ x ∈ l, t.hashToIndex x.2.hash = i) ∧
      l.length ≤ n ∧ shown' = shown ++ l.map fun x => x.2.literal := by
  induction l generalizing n shown with
  | nil => simp [inspect, Hook.Approves, eq_comm]
  | cons x rest ih =>
    obtain ⟨id, e⟩ := x
    by_cases ha : hook shown e.literal = true
    · by_cases hp : t.hashToIndex e.hash = i
      · cases n with
        | zero => simp [inspect, ha, hp]
        | succ n => simp [inspect, ha, hp, ih, Hook.Approves]
      · cases n <;> simp [inspect, ha, hp]
    · cases n <;> simp [inspect, ha, Hook.Approves]

def reportOf (t : Table α) (is : List Nat) (report : Report) : Report :=
  is.foldl (fun r i => r.add i (t.walk i).visited.length) report

def ChainPasses (t : Table α) (accept : α → Bool) (i : Nat) : Prop :=
  (t.walk i).ending = .closed ∧ ∀ x ∈ (t.walk i).visited, t.Passes accept i x

theorem forall_chainPasses : (∀ k ∈ is, t.ChainPasses accept k) ↔
    (∀ k ∈ is, t.Placed k) ∧ ∀ y ∈ t.literalsOf is, accept y = true := by
  constructor
  · intro h
    refine ⟨fun k hk => ⟨(h k hk).1, fun x hx => ((h k hk).2 x hx).2⟩, fun y hy => ?_⟩
    obtain ⟨k, hk, hy⟩ := List.mem_flatMap.mp hy
    obtain ⟨x, hx, rfl⟩ := List.mem_map.mp hy
    exact ((h k hk).2 x hx).1
  · intro ⟨hplaced, haccept⟩ k hk
    refine ⟨(hplaced k hk).1, fun x hx => ⟨haccept _ ?_, (hplaced k hk).2 x hx⟩⟩
    exact List.mem_flatMap.mpr ⟨k, hk, List.mem_map_of_mem hx⟩

theorem inspectChains_ok
    (h : t.inspectChains name hook is report shown = .ok r shown') :
    (∀ k ∈ is, t.Placed k) ∧ hook.Approves shown (t.literalsOf is) ∧ r = t.reportOf is report ∧
      shown' = shown ++ t.literalsOf is := by
  induction is generalizing report shown with
  | nil =>
    obtain ⟨rfl, rfl⟩ := Outcome.ok.inj h
    simp [reportOf, literalsOf, Hook.Approves]
  | cons i is ih =>
    simp only [inspectChains] at h
    cases hi : t.inspect hook i (t.arena.liveCount - report.elementCount)
        (t.walk i).visited shown with
    | mk result shown₁ =>
      rw [hi] at h
      cases result with
      | error d => simp at h
      | ok _ =>
        obtain ⟨happroved, hplaced, -, rfl⟩ := inspect_ok_iff.mp hi
        cases hend : (t.walk i).ending.check with
        | error f => simp [hend] at h
        | ok _ =>
          simp only [hend] at h
          obtain ⟨hall, hrest, hr, rfl⟩ := ih h
          have hclosed := Ending.check_eq_ok.mp hend
          refine ⟨List.forall_mem_cons.mpr ⟨⟨hclosed, hplaced⟩, hall⟩, ?_, hr, ?_⟩
          · rw [literalsOf, List.flatMap_cons, Hook.approves_append]
            exact ⟨happroved, hrest⟩
          · apply Array.toList_inj.mp
            simp [literalsOf]

theorem inspectChains_append (h : ∀ k ∈ pre, t.Placed k)
    (ha : hook.Approves shown (t.literalsOf pre))
    (hroom : report.elementCount + (pre.flatMap fun k => (t.walk k).visited).length ≤
      t.arena.liveCount) :
    t.inspectChains name hook (pre ++ post) report shown =
      t.inspectChains name hook post (t.reportOf pre report) (shown ++ t.literalsOf pre) := by
  induction pre generalizing report shown with
  | nil => simp [reportOf, literalsOf]
  | cons k pre ih =>
    obtain ⟨⟨hend, hplaced⟩, hpre⟩ := List.forall_mem_cons.mp h
    rw [literalsOf, List.flatMap_cons, Hook.approves_append] at ha
    rw [List.flatMap_cons, List.length_append] at hroom
    have hk : t.inspect hook k (t.arena.liveCount - report.elementCount) (t.walk k).visited
        shown = (.ok (), shown ++ (t.walk k).visited.map fun x => x.2.literal) :=
      inspect_ok_iff.mpr ⟨ha.1, hplaced, by omega, rfl⟩
    have hroom : (report.add k (t.walk k).visited.length).elementCount +
        (pre.flatMap fun k => (t.walk k).visited).length ≤ t.arena.liveCount := by
      simp only [Report.add]
      omega
    have hshown : shown ++ ((t.walk k).visited.map fun x => x.2.literal) ++ t.literalsOf pre =
        shown ++ t.literalsOf (k :: pre) := by
      apply Array.toList_inj.mp
      simp [literalsOf]
    simp only [List.cons_append, inspectChains, hk, hend, Ending.check]
    rw [ih hpre ha.2 hroom, hshown]
    rfl

theorem inspectChains_sound
    (h : t.inspectChains name (fun _ => accept) is report shown = .ok r shown') :
    (∀ i ∈ is, t.ChainPasses accept i) ∧ r = t.reportOf is report ∧
      shown' = shown ++ t.literalsOf is := by
  obtain ⟨hplaced, happroved, hr, hshown⟩ := inspectChains_ok h
  exact ⟨forall_chainPasses.mpr ⟨hplaced, Hook.approves_forgetful.mp happroved⟩, hr, hshown⟩

theorem inspectChains_complete (h : ∀ i ∈ is, t.ChainPasses accept i)
    (hroom : report.elementCount + (is.flatMap fun i => (t.walk i).visited).length ≤
      t.arena.liveCount) :
    t.inspectChains name (fun _ => accept) is report shown =
      .ok (t.reportOf is report) (shown ++ t.literalsOf is) := by
  obtain ⟨hplaced, haccept⟩ := forall_chainPasses.mp h
  have hall : t.inspectChains name (fun _ => accept) (is ++ []) report shown =
      .ok (t.reportOf is report) (shown ++ t.literalsOf is) :=
    inspectChains_append hplaced (Hook.approves_forgetful.mpr haccept) hroom
  rwa [List.append_nil] at hall

theorem elementCount_reportOf (t : Table α) (is : List Nat) (report : Report) :
    (t.reportOf is report).elementCount =
      report.elementCount + (is.flatMap fun i => (t.walk i).visited).length := by
  induction is generalizing report with
  | nil => rfl
  | cons i is ih =>
    rw [reportOf, List.foldl_cons]
    have hrest := ih (report.add i (t.walk i).visited.length)
    rw [reportOf] at hrest
    rw [hrest, List.flatMap_cons, List.length_append]
    exact Nat.add_assoc _ _ _

theorem longest_reportOf (t : Table α) (n : Nat) :
    (∀ i < n + 1, (t.walk i).visited.length ≤
      (t.reportOf (List.range (n + 1)) .zero).maxBucketCount) ∧
    (t.reportOf (List.range (n + 1)) .zero).maxBucketIndex < n + 1 ∧
    (t.walk (t.reportOf (List.range (n + 1)) .zero).maxBucketIndex).visited.length =
      (t.reportOf (List.range (n + 1)) .zero).maxBucketCount ∧
    ∀ i < (t.reportOf (List.range (n + 1)) .zero).maxBucketIndex, (t.walk i).visited.length <
      (t.reportOf (List.range (n + 1)) .zero).maxBucketCount := by
  induction n with
  | zero => simp [reportOf, Report.add, Report.zero]
  | succ n ih =>
    have hstep : t.reportOf (List.range (n + 1 + 1)) .zero =
        (t.reportOf (List.range (n + 1)) .zero).add (n + 1) (t.walk (n + 1)).visited.length := by
      rw [reportOf, List.range_succ, List.foldl_append, reportOf]
      rfl
    rw [hstep]
    generalize t.reportOf (List.range (n + 1)) .zero = r at ih
    obtain ⟨hle, hlt, hat, hfirst⟩ := ih
    simp only [Report.add]
    by_cases hmore : r.maxBucketCount < (t.walk (n + 1)).visited.length
    · rw [if_pos hmore, Nat.max_eq_right (Nat.le_of_lt hmore)]
      have hbelow : ∀ i < n + 1, (t.walk i).visited.length < (t.walk (n + 1)).visited.length :=
        fun i hi => Nat.lt_of_le_of_lt (hle i hi) hmore
      refine ⟨fun i hi => ?_, by omega, rfl, hbelow⟩
      rcases Nat.lt_succ_iff_lt_or_eq.mp hi with hi | rfl
      · exact Nat.le_of_lt (hbelow i hi)
      · exact Nat.le_refl _
    · rw [if_neg hmore, Nat.max_eq_left (Nat.le_of_not_lt hmore)]
      refine ⟨fun i hi => ?_, by omega, hat, hfirst⟩
      rcases Nat.lt_succ_iff_lt_or_eq.mp hi with hi | rfl
      · exact hle i hi
      · exact Nat.le_of_not_lt hmore

theorem verifyWith_ok_iff {r : Report} : t.verifyWith name hook = .ok r shown ↔
    t.inspectChains name hook (List.range t.size) .zero #[] = .ok r shown ∧
      t.count = r.elementCount := by
  rw [verifyWith]
  cases t.inspectChains name hook (List.range t.size) .zero #[] with
  | fail f s => simp
  | ok r' s =>
    rw [Outcome.bind_ok]
    split
    · rename_i hc
      constructor
      · intro h
        obtain ⟨rfl, rfl⟩ := Outcome.ok.inj h
        exact ⟨rfl, hc⟩
      · exact fun h => h.1
    · rename_i hc
      simp only [reduceCtorEq, false_iff]
      intro h
      obtain ⟨rfl, rfl⟩ := Outcome.ok.inj h.1
      exact hc h.2

theorem wellFormed_of_passes (h : ∀ i < t.size, t.ChainPasses accept i)
    (hcount : t.count = (t.linked fun i => (t.walk i).ids).length) :
    (t.WellFormed fun i => (t.walk i).ids) ∧ t.Accepted accept fun i => (t.walk i).ids := by
  have hpass : ∀ i, t.ChainPasses accept i := by
    intro i
    by_cases hi : i < t.size
    · exact h i hi
    · rw [ChainPasses, walk_of_size_le (Nat.le_of_not_lt hi)]
      simp
  have hentry : ∀ {i : Nat} {id : EntryId}, id ∈ (t.walk i).ids →
      ∃ e, t.arena.get? id = some e ∧ t.Passes accept i (id, e) := by
    intro i id hid
    obtain ⟨⟨_, e⟩, hx, rfl⟩ := List.mem_map.mp hid
    exact ⟨e, Arena.get?_of_mem_walk hx, (hpass i).2 _ hx⟩
  have hplaced : ∀ {i : Nat} {id : EntryId} {e : Entry α}, id ∈ (t.walk i).ids →
      t.arena.get? id = some e → t.Passes accept i (id, e) := by
    intro i id e hid he
    obtain ⟨e', he', hp⟩ := hentry hid
    obtain rfl := Option.some.inj (he.symm.trans he')
    exact hp
  have hpath : ∀ i, Path t.arena.link (t.head i) (t.walk i).ids none :=
    fun i => Arena.path_of_walk (hpass i).1
  refine ⟨⟨⟨hpath, ?_⟩, fun i => (hpath i).nodup, fun hid he => (hplaced hid he).2, hcount⟩,
    fun hid he => (hplaced hid he).1⟩
  -- an id on two chains would have two buckets
  intro i j id hi hj
  obtain ⟨e, he, hp⟩ := hentry hi
  exact hp.2.symm.trans (hplaced hj he).2

theorem WellFormed.passes (h : t.WellFormed chains) (ha : t.Accepted accept chains) (i : Nat) :
    t.ChainPasses accept i := by
  obtain ⟨hclosed, hids⟩ := h.walk i
  refine ⟨hclosed, fun x hx => ?_⟩
  have hmem : x.1 ∈ chains i := by
    rw [← hids]
    exact List.mem_map_of_mem hx
  have he := Arena.get?_of_mem_walk hx
  exact ⟨ha hmem he, h.placed hmem he⟩

theorem length_linked (t : Table α) :
    ((List.range t.size).flatMap fun i => (t.walk i).visited).length =
      (t.linked fun i => (t.walk i).ids).length := by
  simp only [linked, Walk.ids, ← List.map_flatMap, List.length_map]

theorem verify_sound {r : Report} (hok : t.verify name accept = .ok r shown) :
    (t.WellFormed fun i => (t.walk i).ids) ∧ t.Accepted accept fun i => (t.walk i).ids := by
  obtain ⟨hok, hcount⟩ := verifyWith_ok_iff.mp hok
  obtain ⟨hall, hr, -⟩ := inspectChains_sound hok
  refine wellFormed_of_passes (fun i hi => hall i (List.mem_range.mpr hi)) ?_
  rw [hcount, hr, elementCount_reportOf, length_linked]
  exact Nat.zero_add _

theorem wellFormed_of_report {r : Report}
    (h : (t.verify name accept).result.toOption = some r) :
    t.WellFormed fun i => (t.walk i).ids := by
  cases hverify : t.verify name accept with
  | fail f shown => simp [hverify, Except.toOption] at h
  | ok r shown => exact (verify_sound hverify).1

/-- A well formed table whose literals are accepted passes. The linked ids are distinct and live,
so there are never more of them than the live count still allows. -/
theorem verify_complete (ha : t.arena.Accounted) (hw : t.WellFormed chains)
    (hacc : t.Accepted accept chains) : ∃ r shown, t.verify name accept = .ok r shown := by
  have hids : (fun i => (t.walk i).ids) = chains := by
    funext i
    exact (hw.walk i).2
  have hlen := t.length_linked
  rw [hids] at hlen
  have hlive : (t.linked chains).length ≤ t.arena.liveCount := by
    refine ha.length_le hw.nodup_linked fun id hid => ?_
    obtain ⟨i, hi⟩ := hw.mem_linked.mp hid
    exact hw.live hi
  have hroom : Report.zero.elementCount +
      ((List.range t.size).flatMap fun i => (t.walk i).visited).length ≤ t.arena.liveCount := by
    rw [hlen]
    exact Nat.le_trans (Nat.le_of_eq (Nat.zero_add _)) hlive
  have hok : t.inspectChains name (fun _ => accept) (List.range t.size) .zero #[] =
      .ok (t.reportOf (List.range t.size) .zero) (#[] ++ t.literalsOf (List.range t.size)) :=
    inspectChains_complete (fun i _ => hw.passes hacc i) hroom
  refine ⟨_, _, verifyWith_ok_iff.mpr ⟨hok, ?_⟩⟩
  rw [hw.counted, elementCount_reportOf, hlen]
  exact (Nat.zero_add _).symm

theorem reports_of_verify {r : Report} (hok : t.verify name accept = .ok r shown) :
    t.Reports r shown := by
  obtain ⟨hw, -⟩ := verify_sound hok
  obtain ⟨hok, hcount⟩ := verifyWith_ok_iff.mp hok
  obtain ⟨-, hr, hshown⟩ := inspectChains_sound hok
  have hlits : shown.toList = t.literalsOf (List.range t.size) := by simp [hshown]
  have hids : ∀ i, (t.walk i).ids.length = (t.walk i).visited.length := by simp [Walk.ids]
  obtain ⟨n, hn⟩ : ∃ n, t.size = n + 1 := ⟨t.size - 1, by have := t.size_pos; omega⟩
  obtain ⟨hle, hlt, hat, hfirst⟩ := t.longest_reportOf n
  rw [← hn, ← hr] at hle hlt hat hfirst
  constructor
  case elementCount => exact hcount.symm
  case longest => simpa only [hids] using hle
  case index_lt => exact hlt
  case attained => rw [hids, hat]
  case first => simpa only [hids] using hfirst
  case shown_size => rw [← Array.length_toList, hlits, hw.counted, hw.length_literals]
  case shown_entries => simpa only [hlits] using hw.entries_literals

/-- In every state that a run of calls leaves, whatever the calls and their faults, a verification
succeeds exactly on a well formed table with accepted literals, and reports what is there. -/
theorem verify_run [SlotSize α] [Memory] {tag : MemoryTag} (ht : create n tag = .ok t)
    (calls : List (Call α)) (name : String) (accept : α → Bool) :
    ((∃ r shown, (t.run calls).verify name accept = .ok r shown) ↔
      ∃ chains, (t.run calls).WellFormed chains ∧ (t.run calls).Accepted accept chains) ∧
    ∀ r shown, (t.run calls).verify name accept = .ok r shown → (t.run calls).Reports r shown := by
  refine ⟨⟨fun ⟨r, shown, hok⟩ => ⟨_, verify_sound hok⟩, fun ⟨chains, hw, hacc⟩ => ?_⟩,
    fun r shown hok => reports_of_verify hok⟩
  exact verify_complete (accounted_run (accounted_create ht) calls) hw hacc

theorem verify_run_linked :
    ∃ (_ : Memory) (t : Table UInt32) (id : EntryId) (r : Report) (shown : Array UInt32),
      create 2 .symbol = .ok t ∧
      (t.run [.newEntry 5 7, .addEntry 1 id]).verify "symbols" (· < 8) = .ok r shown ∧
      (t.run [.newEntry 5 7, .addEntry 1 id]).Reports r shown ∧
      ∃ chains, (t.run [.newEntry 5 7, .addEntry 1 id]).WellFormed chains := by
  let mem : Memory := .below 100 (by decide)
  let id : EntryId := .ofIndex 0 (by decide)
  let t : Table UInt32 := ⟨emptyBuckets 2, 0, .empty, .symbol, .zero, by decide⟩
  have ht : create 2 .symbol = .ok t := rfl
  have hpass : ((t.run [.newEntry 5 7, .addEntry 1 id]).verify "symbols" (· < 8)).result.toOption =
      some ⟨1, 1, 1⟩ := by decide +kernel
  obtain ⟨hiff, hreports⟩ := verify_run ht [.newEntry 5 7, .addEntry 1 id] "symbols" (· < 8)
  cases hok : (t.run [.newEntry 5 7, .addEntry 1 id]).verify "symbols" (· < 8) with
  | fail f shown => simp [hok, Except.toOption] at hpass
  | ok r shown =>
    obtain ⟨chains, hw, -⟩ := hiff.mp ⟨r, shown, hok⟩
    exact ⟨mem, t, id, r, shown, ht, hok, hreports r shown hok, chains, hw⟩

end Table

end ChainedTable
