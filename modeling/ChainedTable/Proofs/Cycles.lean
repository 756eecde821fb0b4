import ChainedTable.Proofs.Verification

set_option autoImplicit false

/-!
The test for cycles. A verification counts links against live entries, over all chains together. As
entries on the wrong chain are found first, ids counted on different chains are different, so the
count passes the live entries exactly on a chain that meets an id again. It does so in every state
that calls can leave, since the live count is right in every such state, and it bounds how often the
hook is asked.
-/

namespace ChainedTable

variable {α : Type}

namespace Arena

variable {a : Arena α} {c d : Option EntryId} {ids : List EntryId} {n : Nat}

def literals (a : Arena α) (ids : List EntryId) : List α :=
  ids.filterMap fun id => (a.get? id).map Entry.literal

theorem literals_append (a : Arena α) (xs ys : List EntryId) :
    a.literals (xs ++ ys) = a.literals xs ++ a.literals ys := List.filterMap_append

theorem literals_of_live {l : List (Linked α)} (h : ∀ x ∈ l, a.get? x.1 = some x.2) :
    a.literals (l.map Prod.fst) = l.map fun x => x.2.literal := by
  induction l with
  | nil => rfl
  | cons x l ih =>
    obtain ⟨hx, hl⟩ := List.forall_mem_cons.mp h
    have hl := ih hl
    simp only [literals, List.map_cons] at hl ⊢
    rw [List.filterMap_cons_some (by rw [hx]; rfl), hl]

theorem path_walk (a : Arena α) (n : Nat) (c : Option EntryId) :
    ∃ d, Path a.link c (a.walk n c).ids d := by
  induction n generalizing c with
  | zero => cases c <;> simp [Walk.ids]
  | succ n ih =>
    cases c with
    | none => simp [Walk.ids]
    | some id =>
      cases he : a.get? id with
      | none => simp [walk_dead n he, Walk.ids]
      | some e =>
        obtain ⟨d, hd⟩ := ih e.next
        rw [walk_live n he]
        exact ⟨d, rfl, e.next, link_of_get? he, hd⟩

theorem length_walk_unfinished (h : (a.walk n c).ending = .unfinished) :
    (a.walk n c).visited.length = n := by
  induction n generalizing c with
  | zero => cases c <;> simp
  | succ n ih =>
    cases c with
    | none => simp at h
    | some id =>
      cases he : a.get? id with
      | none => simp [walk_dead n he] at h
      | some e =>
        rw [walk_live n he] at h ⊢
        rw [List.length_cons, ih h]

theorem ids_walk_infinite {ids : Nat → EntryId} (hc : c = some (ids 0))
    (hlink : ∀ k, a.link (ids k) = some (some (ids (k + 1)))) (n : Nat) :
    (a.walk n c).ids = (List.range n).map ids := by
  subst hc
  induction n generalizing ids with
  | zero => rfl
  | succ n ih =>
    obtain ⟨e, he, hnext⟩ := link_eq_some.mp (hlink 0)
    have hrest : (a.walk n (some (ids 1))).ids = (List.range n).map fun k => ids (k + 1) :=
      ih fun k => hlink (k + 1)
    rw [walk_live n he, hnext, List.range_succ_eq_map, List.map_cons, List.map_map]
    exact congrArg (ids 0 :: ·) hrest

end Arena

namespace Table

variable {t : Table α} {hook : Hook α} {name : String} {i j n : Nat} {l : List (Linked α)}
  {shown shown' : Array α} {is pre post : List Nat} {report : Report}

def Revisits (t : Table α) (i : Nat) : Prop :=
  ∃ ids d, Path t.arena.link (t.head i) ids d ∧ ¬ ids.Nodup

def Finite (t : Table α) (i : Nat) : Prop := ∃ ids, Path t.arena.link (t.head i) ids none

/-- Chain `i` is infinite and passes the checks of a verification, as do the chains ahead of it,
which end. -/
structure RunsOn (t : Table α) (hook : Hook α) (chains : Nat → List EntryId) (i : Nat)
    (ids : Nat → EntryId) : Prop where
  head : t.head i = some (ids 0)
  link : ∀ k, t.arena.link (ids k) = some (some (ids (k + 1)))
  placed : ∀ k, t.bucketOf (ids k) = i
  path_ahead : ∀ j < i, Path t.arena.link (t.head j) (chains j) none
  placed_ahead : ∀ j < i, ∀ id ∈ chains j, t.bucketOf id = j
  /-- The literals ahead and those of the chain, as far as one likes, are accepted in this order. -/
  approved : ∀ n, hook.Approves #[]
    (t.arena.literals ((List.range i).flatMap chains ++ (List.range n).map ids))

structure FindsCycles (t : Table α) (name : String) (hook : Hook α) : Prop where
  ends : (t.verifyWith name hook).result ≠ .error .endless
  shown_le : (t.verifyWith name hook).state.size ≤ t.arena.liveCount + 1
  sound : ∀ i, (t.verifyWith name hook).result = .error (.verification name (.cyclic i)) →
    t.Revisits i ∧ ∀ j < i, t.Finite j
  complete : ∀ chains i ids, t.RunsOn hook chains i ids →
    (t.verifyWith name hook).result = .error (.verification name (.cyclic i))

theorem inspect_cyclic (h : (t.inspect hook i n l shown).1 = .error (.cyclic j)) :
    j = i ∧ n < l.length ∧ ∀ x ∈ l.take (n + 1), t.hashToIndex x.2.hash = i := by
  induction l generalizing n shown with
  | nil => simp [inspect] at h
  | cons x rest ih =>
    obtain ⟨id, e⟩ := x
    by_cases ha : hook shown e.literal = true
    · by_cases hp : t.hashToIndex e.hash = i
      · cases n with
        | zero =>
          obtain rfl : i = j := by simpa [inspect, ha, hp] using h
          simp [hp]
        | succ n =>
          simp only [inspect, ha, hp, Bool.not_true, Bool.false_eq_true, ↓reduceIte,
            ne_eq, not_true_eq_false] at h
          obtain ⟨rfl, hlt, hall⟩ := ih h
          exact ⟨rfl, Nat.succ_lt_succ hlt, List.forall_mem_cons.mpr ⟨hp, hall⟩⟩
      · cases n <;> simp [inspect, ha, hp] at h
    · cases n <;> simp [inspect, ha] at h

theorem inspect_too_long (hlen : n < l.length)
    (ha : hook.Approves shown ((l.take (n + 1)).map fun x => x.2.literal))
    (hp : ∀ x ∈ l.take (n + 1), t.hashToIndex x.2.hash = i) :
    (t.inspect hook i n l shown).1 = .error (.cyclic i) := by
  induction l generalizing n shown with
  | nil => simp at hlen
  | cons x rest ih =>
    obtain ⟨id, e⟩ := x
    obtain ⟨hanswer, hrest⟩ := ha
    obtain ⟨hhere, hp⟩ := List.forall_mem_cons.mp hp
    cases n with
    | zero => simp [inspect, hanswer, hhere]
    | succ n => simpa [inspect, hanswer, hhere] using ih (Nat.lt_of_succ_lt_succ hlen) hrest hp

theorem size_inspect_le (t : Table α) (hook : Hook α) (i n : Nat) (l : List (Linked α))
    (shown : Array α) : (t.inspect hook i n l shown).2.size ≤ shown.size + n + 1 := by
  induction l generalizing n shown with
  | nil =>
    simp only [inspect]
    omega
  | cons x rest ih =>
    obtain ⟨id, e⟩ := x
    cases n with
    | zero =>
      simp only [inspect]
      split
      · simp
      · split <;> simp
    | succ n =>
      have hrest := ih n (shown.push e.literal)
      simp only [Array.size_push] at hrest
      simp only [inspect]
      split
      · simp only [Array.size_push]
        omega
      · split
        · simp only [Array.size_push]
          omega
        · omega

theorem size_inspectChains_le (hs : shown.size = report.elementCount)
    (hr : report.elementCount ≤ t.arena.liveCount) :
    (t.inspectChains name hook is report shown).state.size ≤ t.arena.liveCount + 1 := by
  induction is generalizing report shown with
  | nil =>
    simp only [inspectChains, Outcome.state_ok]
    omega
  | cons i is ih =>
    have hsize := t.size_inspect_le hook i (t.arena.liveCount - report.elementCount)
      (t.walk i).visited shown
    simp only [inspectChains]
    cases hi : t.inspect hook i (t.arena.liveCount - report.elementCount)
        (t.walk i).visited shown with
    | mk result shown₁ =>
      rw [hi] at hsize
      cases result with
      | error d =>
        simp only [Outcome.state_fail] at hsize ⊢
        omega
      | ok _ =>
        obtain ⟨-, -, hlen, rfl⟩ := inspect_ok_iff.mp hi
        cases (t.walk i).ending.check with
        | error f =>
          simp only [Outcome.state_fail] at hsize ⊢
          omega
        | ok _ =>
          refine ih ?_ ?_
          · rw [← Array.length_toList, Array.toList_appendList, List.length_append,
              Array.length_toList, List.length_map, hs]
            rfl
          · simp only [Report.add]
            omega

/-- A walk that its bound cuts has more entries than are live, so the count stops it first. -/
theorem inspectChains_ends :
    (t.inspectChains name hook is report shown).result ≠ .error .endless := by
  induction is generalizing report shown with
  | nil => simp [inspectChains]
  | cons i is ih =>
    simp only [inspectChains]
    cases hi : t.inspect hook i (t.arena.liveCount - report.elementCount)
        (t.walk i).visited shown with
    | mk result shown₁ =>
      cases result with
      | error d => simp
      | ok _ =>
        obtain ⟨-, -, hlen, -⟩ := inspect_ok_iff.mp hi
        cases hend : (t.walk i).ending with
        | closed => exact ih
        | dead id => simp [Ending.check]
        | unfinished =>
          have hbound : (t.walk i).visited.length = t.arena.carved + 1 :=
            Arena.length_walk_unfinished hend
          simp only [Arena.liveCount, Arena.carved] at hlen hbound
          omega

/-- A chain that is called cyclic stands behind chains that end, and with what is placed on them it
has more placed entries than are live. -/
theorem inspectChains_cyclic
    (h : (t.inspectChains name hook is report shown).result =
      .error (.verification name (.cyclic i))) :
    ∃ pre post n, is = pre ++ i :: post ∧
      (∀ k ∈ pre, t.Placed k) ∧ (∀ x ∈ (t.walk i).visited.take n, t.hashToIndex x.2.hash = i) ∧
      t.arena.liveCount < report.elementCount +
        (pre.flatMap fun k => (t.walk k).visited).length + ((t.walk i).visited.take n).length := by
  induction is generalizing report shown with
  | nil => simp [inspectChains] at h
  | cons k is ih =>
    simp only [inspectChains] at h
    cases hk : t.inspect hook k (t.arena.liveCount - report.elementCount)
        (t.walk k).visited shown with
    | mk result shown₁ =>
      rw [hk] at h
      cases result with
      | error d =>
        obtain rfl : d = .cyclic i := by simpa using h
        obtain ⟨rfl, hlt, hplaced⟩ := inspect_cyclic (congrArg Prod.fst hk)
        refine ⟨[], is, _, rfl, by simp, hplaced, ?_⟩
        rw [List.length_take_of_le hlt]
        simp only [List.flatMap_nil, List.length_nil]
        omega
      | ok _ =>
        obtain ⟨-, hplaced, -, -⟩ := inspect_ok_iff.mp hk
        cases hend : (t.walk k).ending with
        | closed =>
          simp only [hend, Ending.check] at h
          obtain ⟨pre, post, n, rfl, hpre, hi, hmore⟩ := ih h
          refine ⟨k :: pre, post, n, rfl, List.forall_mem_cons.mpr ⟨⟨hend, hplaced⟩, hpre⟩, hi, ?_⟩
          simp only [Report.add] at hmore
          rw [List.flatMap_cons, List.length_append]
          omega
        | dead id => simp [hend, Ending.check] at h
        | unfinished => simp [hend, Ending.check] at h

theorem state_verifyWith : (t.verifyWith name hook).state =
    (t.inspectChains name hook (List.range t.size) .zero #[]).state := by
  rw [verifyWith]
  cases t.inspectChains name hook (List.range t.size) .zero #[] with
  | fail f s => rfl
  | ok r s =>
    rw [Outcome.bind_ok]
    split <;> rfl

theorem error_of_verifyWith {f : Fault} (h : (t.verifyWith name hook).result = .error f) :
    (t.inspectChains name hook (List.range t.size) .zero #[]).result = .error f ∨
      ∃ linked, f = .verification name (.miscounted t.count linked) := by
  rw [verifyWith] at h
  cases hc : t.inspectChains name hook (List.range t.size) .zero #[] with
  | fail g s => exact .inl (by simpa [hc] using h)
  | ok r s =>
    rw [hc, Outcome.bind_ok] at h
    split at h
    · simp at h
    · exact .inr ⟨r.elementCount, (Except.error.inj h).symm⟩

theorem verifyWith_ends : (t.verifyWith name hook).result ≠ .error .endless := by
  intro h
  rcases error_of_verifyWith h with h | ⟨_, h⟩
  · exact inspectChains_ends h
  · simp at h

theorem size_verifyWith_le :
    (t.verifyWith name hook).state.size ≤ t.arena.liveCount + 1 := by
  rw [state_verifyWith]
  exact size_inspectChains_le rfl (Nat.zero_le _)

/-- Entries of chain `i` that lie where their hashes say are not on the chains ahead of it, so
different ones are, with those chains, no more than are live. -/
theorem length_placed_le (ha : t.arena.Accounted) (hplaced : ∀ k < i, t.Placed k)
    (hnd : (l.map Prod.fst).Nodup) (hlive : ∀ x ∈ l, t.arena.get? x.1 = some x.2)
    (hl : ∀ x ∈ l, t.hashToIndex x.2.hash = i) :
    ((List.range i).flatMap fun k => (t.walk k).visited).length + l.length ≤ t.arena.liveCount := by
  have hbucket : ∀ {k : Nat} {id : EntryId}, k ∈ List.range i → id ∈ (t.walk k).ids →
      t.bucketOf id = k := by
    intro k id hk hid
    obtain ⟨x, hx, rfl⟩ := List.mem_map.mp hid
    rw [bucketOf_of_get? (Arena.get?_of_mem_walk hx)]
    exact (hplaced k (List.mem_range.mp hk)).2 x hx
  have hahead : ((List.range i).flatMap fun k => (t.walk k).ids).Nodup := by
    rw [List.nodup_flatMap]
    constructor
    · exact fun k hk => (Arena.path_of_walk (hplaced k (List.mem_range.mp hk)).1).nodup
    · refine List.nodup_range.pairwise_of_forall_ne fun j hj k hk hjk => ?_
      exact List.disjoint_left.mpr fun id hidj hidk =>
        hjk ((hbucket hj hidj).symm.trans (hbucket hk hidk))
  have hall : (((List.range i).flatMap fun k => (t.walk k).ids) ++ l.map Prod.fst).Nodup := by
    refine hahead.append hnd (List.disjoint_left.mpr fun id hid hidl => ?_)
    obtain ⟨k, hk, hid⟩ := List.mem_flatMap.mp hid
    obtain ⟨x, hx, rfl⟩ := List.mem_map.mp hidl
    have hki : k = i := by
      rw [← hbucket hk hid, bucketOf_of_get? (hlive x hx), hl x hx]
    exact Nat.ne_of_lt (List.mem_range.mp hk) hki
  have hle := ha.length_le hall fun id hid => by
    rcases List.mem_append.mp hid with hid | hid
    · obtain ⟨k, -, hid⟩ := List.mem_flatMap.mp hid
      obtain ⟨x, hx, rfl⟩ := List.mem_map.mp hid
      exact ⟨x.2, Arena.get?_of_mem_walk hx⟩
    · obtain ⟨x, hx, rfl⟩ := List.mem_map.mp hid
      exact ⟨x.2, hlive x hx⟩
  simpa only [Walk.ids, ← List.map_flatMap, List.length_append, List.length_map] using hle

theorem literalsOf_eq (t : Table α) (is : List Nat) :
    t.literalsOf is = t.arena.literals (is.flatMap fun k => (t.walk k).ids) := by
  have hlive : ∀ x ∈ is.flatMap fun k => (t.walk k).visited, t.arena.get? x.1 = some x.2 := by
    intro x hx
    obtain ⟨k, -, hx⟩ := List.mem_flatMap.mp hx
    exact Arena.get?_of_mem_walk hx
  simp only [literalsOf, Walk.ids, ← List.map_flatMap, Arena.literals_of_live hlive]

theorem eq_range_of_append_cons (h : List.range n = pre ++ i :: post) : pre = List.range i := by
  rw [List.range_eq_range', List.range'_eq_append_iff] at h
  obtain ⟨k, -, rfl, hrest⟩ := h
  cases hd : n - k with
  | zero => simp [hd] at hrest
  | succ d =>
    obtain ⟨hi, -⟩ : i = k ∧ _ := by simpa [hd, List.range'_succ] using hrest
    rw [hi, List.range_eq_range']

theorem range_split (h : i < n) : ∃ post, List.range n = List.range i ++ i :: post := by
  obtain ⟨k, rfl⟩ := Nat.exists_eq_add_of_lt h
  rw [Nat.add_assoc, List.range_add, List.range_succ_eq_map]
  exact ⟨_, rfl⟩

theorem verifyWith_sound (ha : t.arena.Accounted)
    (h : (t.verifyWith name hook).result = .error (.verification name (.cyclic i))) :
    t.Revisits i ∧ ∀ j < i, t.Finite j := by
  have hchains : (t.inspectChains name hook (List.range t.size) .zero #[]).result =
      .error (.verification name (.cyclic i)) := by
    rcases error_of_verifyWith h with h | ⟨_, h⟩
    · exact h
    · simp at h
  obtain ⟨pre, post, n, hrange, hpre, hplaced, hmore⟩ := inspectChains_cyclic hchains
  obtain rfl : pre = List.range i := eq_range_of_append_cons hrange
  have hahead : ∀ k < i, t.Placed k := fun k hk => hpre k (List.mem_range.mpr hk)
  refine ⟨?_, fun k hk => ⟨_, Arena.path_of_walk (hahead k hk).1⟩⟩
  by_contra hno
  -- else the entries counted have different ids, of which there are not so many
  obtain ⟨d, hpath⟩ := t.arena.path_walk t.walkBound (t.head i)
  have hnd : (t.walk i).ids.Nodup := by
    by_contra hdup
    exact hno ⟨_, d, hpath, hdup⟩
  have hcut : (((t.walk i).visited.take n).map Prod.fst).Nodup := by
    rw [List.map_take]
    exact hnd.sublist (List.take_sublist n _)
  have hle := length_placed_le ha hahead hcut
    (fun x hx => Arena.get?_of_mem_walk (List.mem_of_mem_take hx)) hplaced
  simp only [Report.zero] at hmore
  omega

theorem RunsOn.too_long {chains : Nat → List EntryId} {ids : Nat → EntryId}
    (h : t.RunsOn hook chains i ids) (hn : n ≤ t.arena.liveCount) :
    (t.inspect hook i n (t.walk i).visited
      ((#[] : Array α) ++ t.arena.literals ((List.range i).flatMap chains))).1 =
        .error (.cyclic i) := by
  have hids : (t.walk i).ids = (List.range t.walkBound).map ids :=
    Arena.ids_walk_infinite h.head h.link t.walkBound
  have hlen : (t.walk i).visited.length = t.walkBound := by
    simpa [Walk.ids] using congrArg List.length hids
  have hlt : n < t.walkBound := by
    simp only [Arena.liveCount, walkBound, Arena.carved] at hn ⊢
    omega
  have hlive : ∀ x ∈ (t.walk i).visited.take (n + 1), t.arena.get? x.1 = some x.2 :=
    fun x hx => Arena.get?_of_mem_walk (List.mem_of_mem_take hx)
  have hcut : ((t.walk i).visited.take (n + 1)).map Prod.fst = (List.range (n + 1)).map ids := by
    rw [List.map_take, ← Walk.ids, hids, ← List.map_take, List.take_range, Nat.min_eq_left hlt]
  have happroved := h.approved (n + 1)
  rw [Arena.literals_append, Hook.approves_append, ← hcut, Arena.literals_of_live hlive]
    at happroved
  refine inspect_too_long (by omega) happroved.2 fun x hx => ?_
  have hmem : x.1 ∈ (List.range (n + 1)).map ids := hcut ▸ List.mem_map_of_mem hx
  obtain ⟨k, -, hk⟩ := List.mem_map.mp hmem
  rw [← bucketOf_of_get? (hlive x hx), ← hk, h.placed k]

theorem verifyWith_complete {chains : Nat → List EntryId} {ids : Nat → EntryId}
    (ha : t.arena.Accounted) (h : t.RunsOn hook chains i ids) :
    (t.verifyWith name hook).result = .error (.verification name (.cyclic i)) := by
  have hi : i < t.size := by
    apply Nat.lt_of_not_le
    intro hle
    have hhead := h.head
    simp [head_of_size_le hle] at hhead
  have hwalk : ∀ k < i, (t.walk k).ending = .closed ∧ (t.walk k).ids = chains k := fun k hk =>
    Arena.walk_of_path (h.path_ahead k hk) rfl
      (Nat.lt_succ_of_le (Arena.length_le_carved (h.path_ahead k hk) rfl))
  have hahead : ∀ k < i, t.Placed k := by
    intro k hk
    obtain ⟨hend, hids⟩ := hwalk k hk
    refine ⟨hend, fun x hx => ?_⟩
    rw [← bucketOf_of_get? (Arena.get?_of_mem_walk hx)]
    exact h.placed_ahead k hk x.1 (hids ▸ List.mem_map_of_mem hx)
  -- the chains ahead hold different live ids, so the count does not stop on them
  have hroom := length_placed_le (l := []) ha hahead (by simp) (by simp) (by simp)
  have hlits : t.literalsOf (List.range i) = t.arena.literals ((List.range i).flatMap chains) := by
    rw [literalsOf_eq]
    exact congrArg _ (List.flatMap_congr fun k hk => (hwalk k (List.mem_range.mp hk)).2)
  have happroved : hook.Approves #[] (t.literalsOf (List.range i)) := by
    rw [hlits]
    exact (Hook.approves_append.mp (Arena.literals_append _ _ _ ▸ h.approved 0)).1
  obtain ⟨post, hrange⟩ := range_split hi
  have hchains : t.inspectChains name hook (List.range i ++ i :: post) .zero #[] =
      t.inspectChains name hook (i :: post) (t.reportOf (List.range i) .zero)
        (#[] ++ t.literalsOf (List.range i)) :=
    inspectChains_append (fun k hk => hahead k (List.mem_range.mp hk)) happroved
      (by simpa [Report.zero] using hroom)
  have hcyclic := h.too_long
    (Nat.sub_le t.arena.liveCount (t.reportOf (List.range i) .zero).elementCount)
  rw [verifyWith, hrange, hchains, inspectChains, hlits]
  cases hc : t.inspect hook i
      (t.arena.liveCount - (t.reportOf (List.range i) .zero).elementCount) (t.walk i).visited
      ((#[] : Array α) ++ t.arena.literals ((List.range i).flatMap chains)) with
  | mk result shown =>
    rw [hc] at hcyclic
    obtain rfl : result = .error (.cyclic i) := hcyclic
    rfl

/-- In every state that a run of calls leaves, whatever the calls and their faults, and for every
hook, a verification ends, asks the hook at most once more than there are live entries, and calls a
chain cyclic only if it meets an id again and the chains ahead of it end; and it does call cyclic
the first infinite chain, if nothing else is wrong with it or ahead of it. -/
theorem findsCycles_run [SlotSize α] [Memory] {tag : MemoryTag} (ht : create n tag = .ok t)
    (calls : List (Call α)) (name : String) (hook : Hook α) :
    (t.run calls).FindsCycles name hook := by
  have ha := accounted_run (accounted_create ht) calls
  constructor
  case ends => exact verifyWith_ends
  case shown_le => exact size_verifyWith_le
  case sound => exact fun i => verifyWith_sound ha
  case complete => exact fun chains i ids => verifyWith_complete ha

theorem findsCycles_run_loop :
    ∃ (_ : Memory) (t : Table UInt32) (a b : EntryId) (calls : List (Call UInt32)),
      create 2 .symbol = .ok t ∧
      calls = [.newEntry 4 7, .newEntry 5 9, .addEntry 0 a, .addEntry 1 b, .setNext b (some b)] ∧
      ((t.run calls).verifyWith "symbols" fun _ _ => true).result =
        .error (.verification "symbols" (.cyclic 1)) ∧
      (t.run calls).Revisits 1 ∧ (t.run calls).Finite 0 := by
  let mem : Memory := .below 100 (by decide)
  let a : EntryId := .ofIndex 0 (by decide)
  let b : EntryId := .ofIndex 1 (by decide)
  let calls : List (Call UInt32) :=
    [.newEntry 4 7, .newEntry 5 9, .addEntry 0 a, .addEntry 1 b, .setNext b (some b)]
  let t : Table UInt32 := ⟨emptyBuckets 2, 0, .empty, .symbol, .zero, by decide⟩
  have ht : create 2 .symbol = .ok t := rfl
  have happroved : ∀ xs : List UInt32, Hook.Approves (fun _ _ => true) #[] xs := fun _ =>
    Hook.approves_forgetful.mpr fun _ _ => rfl
  have hfinds := findsCycles_run ht calls "symbols" fun _ _ => true
  have hruns : (t.run calls).RunsOn (fun _ _ => true) (fun _ => [a]) 1 fun _ => b := by
    constructor
    case head => decide +kernel
    case link => exact fun _ => by decide +kernel
    case placed => exact fun _ => by decide +kernel
    case path_ahead =>
      intro j hj
      obtain rfl : j = 0 := by omega
      exact ⟨by decide +kernel, none, by decide +kernel, rfl⟩
    case placed_ahead =>
      intro j hj
      obtain rfl : j = 0 := by omega
      decide +kernel
    case approved =>
      intro n
      generalize (t.run calls).arena.literals _ = xs
      exact happroved xs
  have hcyclic := hfinds.complete _ 1 _ hruns
  obtain ⟨hrevisits, hends⟩ := hfinds.sound 1 hcyclic
  exact ⟨mem, t, a, b, calls, ht, rfl, hcyclic, hrevisits, hends 0 (by decide)⟩

end Table

end ChainedTable
