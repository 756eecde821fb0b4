import ChainedTable.Proofs.Table.Migration

set_option autoImplicit false

/-!
The bounds of the loops along chains are no limits: what they cut never ends. For a migration this
is not plain, as it bends the links that it follows. Where it comes back to an entry that it has
moved, it is on a new chain and stays there. If that chain ends, the rest of it is moved again, and
has no end from then on; and on a chain without end every link leads on, whatever is moved.
-/

namespace ChainedTable

variable {α : Type}

theorem Arena.walk_of_ends {a : Arena α} {c : Option EntryId} {m n : Nat}
    (h : (a.walk m c).ending ≠ .unfinished) (hn : a.carved < n) : a.walk n c = a.walk m c := by
  have hstop : (a.walk m c).ending.deadId?.bind a.link = none := by
    cases he : (a.walk m c).ending with
    | dead id => exact link_eq_none.mpr (get?_of_walk_dead he)
    | _ => rfl
  have hp := path_of_walk_ends h
  obtain ⟨hend, hids⟩ := walk_of_path hp hstop (Nat.lt_of_le_of_lt (length_le_carved hp hstop) hn)
  refine walk_eq_of_get?_eq (fun _ => rfl) hids (hend.trans ?_)
  cases he : (a.walk m c).ending with
  | unfinished => exact absurd he h
  | _ => rfl

namespace Table

variable {t u : Table α} {moved rest : List EntryId} {id : EntryId} {e : Entry α} {b n : Nat}
  {c : Option EntryId}

/-- The chain of bucket `b` has no end over the moved ids: but for the ids in `rest`, each of the
bucket leads on to another. -/
structure Rings (t : Table α) (moved rest : List EntryId) (b : Nat) : Prop where
  head : ∃ p ∈ moved, t.bucketOf p = b ∧ t.head b = some p
  link : ∀ {id : EntryId}, id ∈ moved → t.bucketOf id = b → id ∉ rest →
    ∃ next ∈ moved, t.bucketOf next = b ∧ t.arena.link id = some (some next)

def Ends (t : Table α) (moved : List EntryId) (b : Nat) : Prop :=
  ∃ ids, Path t.arena.link (t.head b) ids none ∧ ∀ id, id ∈ ids ↔ id ∈ moved ∧ t.bucketOf id = b

/-- A table in which the entries `moved`, and no others, were put on new chains. -/
structure Housed (t : Table α) (moved : List EntryId) : Prop where
  nodup : moved.Nodup
  index_lt : ∀ id ∈ moved, id.index < t.arena.carved
  chain : ∀ b, t.Ends moved b ∨ t.Rings moved [] b

theorem Housed.length_le (h : t.Housed moved) : moved.length ≤ t.arena.carved :=
  length_le_of_index_lt h.nodup h.index_lt

theorem bucketOf_prepend (he : t.arena.get? id = some e) (i : Nat) :
    (t.prepend i id e).bucketOf = t.bucketOf :=
  (relinked_prepend i he).bucketOf (t.size_prepend i id e)

section
variable (he : t.arena.get? id = some e)
include he

theorem head_prepend_bucketOf (b : Nat) :
    (t.prepend (t.hashToIndex e.hash) id e).head b =
      if b = t.bucketOf id then some id else t.head b := by
  rw [head_prepend (t.hashToIndex_lt e.hash), bucketOf_of_get? he]

theorem Rings.prepend {moved' rest' : List EntryId} (h : t.Rings moved rest b)
    (hmoved : ∀ j, j ∈ moved' ↔ j = id ∨ j ∈ moved) (hrest : ∀ j ∈ rest, j ≠ id → j ∈ rest') :
    (t.prepend (t.hashToIndex e.hash) id e).Rings moved' rest' b := by
  obtain ⟨p, hp, hpb, hhead⟩ := h.head
  rw [← bucketOf_of_get? he]
  constructor
  case head =>
    rw [bucketOf_prepend he, bucketOf_of_get? he, head_prepend_bucketOf he]
    by_cases hb : b = t.bucketOf id
    · exact ⟨id, (hmoved id).mpr (.inl rfl), hb.symm, if_pos hb⟩
    · exact ⟨p, (hmoved p).mpr (.inr hp), hpb, (if_neg hb).trans hhead⟩
  case link =>
    intro j hj hjb hjrest
    rw [bucketOf_prepend he] at hjb ⊢
    rw [link_prepend _ he]
    by_cases hje : j = id
    · subst hje
      exact ⟨p, (hmoved p).mpr (.inr hp), hpb, by rw [if_pos rfl, hjb, hhead]⟩
    · have hold := ((hmoved j).mp hj).resolve_left hje
      obtain ⟨next, hnext, hnb, hlink⟩ :=
        h.link hold hjb fun hmem => hjrest (hrest j hmem hje)
      exact ⟨next, (hmoved next).mpr (.inr hnext), hnb, by rw [if_neg hje, hlink]⟩

theorem Rings.prepend_again {rest' : List EntryId} (h : t.Rings moved rest b) (hid : id ∈ moved)
    (hrest : ∀ j ∈ rest, j ≠ id → j ∈ rest') :
    (t.prepend (t.hashToIndex e.hash) id e).Rings moved rest' b :=
  h.prepend he (fun _ => ⟨.inr, fun hj => hj.elim (fun hje => hje ▸ hid) fun hj => hj⟩) hrest

theorem Ends.prepend (h : t.Ends moved b) (hid : id ∉ moved) :
    (t.prepend (t.hashToIndex e.hash) id e).Ends (id :: moved) b := by
  obtain ⟨ids, hp, hids⟩ := h
  have hnot : id ∉ ids := fun hmem => hid ((hids id).mp hmem).1
  have hkept : Path (t.prepend (t.hashToIndex e.hash) id e).arena.link (t.head b) ids none :=
    hp.congr fun j hj => by
      have hje : j ≠ id := fun hje => hnot (hje ▸ hj)
      rw [link_prepend _ he, if_neg hje]
  by_cases hb : b = t.bucketOf id
  · refine ⟨id :: ids, ⟨?_, t.head b, ?_, hkept⟩, fun j => ?_⟩
    · rw [head_prepend_bucketOf he, if_pos hb]
    · rw [link_prepend _ he, if_pos rfl, hb, bucketOf_of_get? he]
    · rw [bucketOf_prepend he, List.mem_cons, List.mem_cons, hids]
      constructor
      · rintro (rfl | ⟨hj, hjb⟩)
        · exact ⟨.inl rfl, hb.symm⟩
        · exact ⟨.inr hj, hjb⟩
      · rintro ⟨rfl | hj, hjb⟩
        · exact .inl rfl
        · exact .inr ⟨hj, hjb⟩
  · refine ⟨ids, ?_, fun j => ?_⟩
    · rwa [head_prepend_bucketOf he, if_neg hb]
    · rw [bucketOf_prepend he, hids, List.mem_cons]
      constructor
      · exact fun ⟨hj, hjb⟩ => ⟨.inr hj, hjb⟩
      · rintro ⟨rfl | hj, hjb⟩
        · exact absurd hjb.symm hb
        · exact ⟨hj, hjb⟩

theorem Housed.prepend (h : t.Housed moved) (hid : id ∉ moved) :
    (t.prepend (t.hashToIndex e.hash) id e).Housed (id :: moved) where
  nodup := List.nodup_cons.mpr ⟨hid, h.nodup⟩
  index_lt j hj := by
    rw [(relinked_prepend (t.hashToIndex e.hash) he).arena.carved]
    rcases List.mem_cons.mp hj with rfl | hj
    · exact Arena.index_lt_of_get? he
    · exact h.index_lt j hj
  chain b := (h.chain b).imp (fun hb => hb.prepend he hid)
    fun hb => hb.prepend he (fun _ => List.mem_cons) (by simp)

end

/-- On a chain without end a migration goes on for ever. -/
theorem Rings.endless (h : t.Rings moved [] b) (hid : id ∈ moved) (hb : t.bucketOf id = b)
    (n : Nat) : (t.migrateChain n (some id)).result = .error .endless := by
  induction n generalizing t id with
  | zero => rfl
  | succ n ih =>
    obtain ⟨next, hnext, hnb, hlink⟩ := h.link hid hb (List.not_mem_nil)
    obtain ⟨e, he, hen⟩ := Arena.link_eq_some.mp hlink
    simp only [migrateChain, he, hen]
    exact ih (h.prepend_again he hid (by simp)) hnext (by rwa [bucketOf_prepend he])

/-- The rest of a chain of moved entries is moved again, and then the chain has no end. -/
theorem Rings.turn (h : t.Rings moved rest b) (hp : Path t.arena.link c rest none)
    (hrest : ∀ id ∈ rest, id ∈ moved ∧ t.bucketOf id = b) :
    ∃ u, (∀ n, rest.length < n → t.migrateChain n c = .ok () u) ∧ u.Rings moved [] b ∧
      (∀ k, k ≠ b → u.head k = t.head k) ∧
      ∀ id, t.bucketOf id ≠ b → u.arena.link id = t.arena.link id := by
  induction rest generalizing t c with
  | nil =>
    obtain rfl := hp
    exact ⟨t, fun n _ => by cases n <;> rfl, h, fun _ _ => rfl, fun _ _ => rfl⟩
  | cons id rest ih =>
    have hnot : id ∉ rest := (List.nodup_cons.mp hp.nodup).1
    obtain ⟨rfl, m, hm, hr⟩ := hp
    obtain ⟨e, he, rfl⟩ := Arena.link_eq_some.mp hm
    obtain ⟨hid, hb⟩ := hrest id List.mem_cons_self
    have hleft : ∀ j ∈ id :: rest, j ≠ id → j ∈ rest := fun j hj hje =>
      (List.mem_cons.mp hj).resolve_left hje
    have hpath : Path (t.prepend (t.hashToIndex e.hash) id e).arena.link e.next rest none :=
      hr.congr fun j hj => by
        have hje : j ≠ id := fun hje => hnot (hje ▸ hj)
        rw [link_prepend _ he, if_neg hje]
    have hrest' : ∀ j ∈ rest,
        j ∈ moved ∧ (t.prepend (t.hashToIndex e.hash) id e).bucketOf j = b := fun j hj => by
      rw [bucketOf_prepend he]
      exact hrest j (List.mem_cons_of_mem id hj)
    obtain ⟨u, hu, hrings, hheads, hlinks⟩ :=
      ih (h.prepend_again he hid hleft) hpath hrest'
    refine ⟨u, fun n hn => ?_, hrings, fun k hk => ?_, fun j hj => ?_⟩
    · obtain ⟨n, rfl⟩ := Nat.exists_eq_add_of_lt hn
      simpa only [migrateChain, he] using hu _ (by rw [List.length_cons]; omega)
    · rw [hheads k hk, head_prepend_bucketOf he, if_neg (hb ▸ hk)]
    · have hje : j ≠ id := fun hje => hj (hje ▸ hb)
      rw [hlinks j (by rwa [bucketOf_prepend he]), link_prepend _ he, if_neg hje]

theorem Rings.of_path {xs ys : List EntryId}
    (hp : Path t.arena.link (t.head b) (xs ++ id :: ys) none)
    (hids : ∀ j, j ∈ xs ++ id :: ys ↔ j ∈ moved ∧ t.bucketOf j = b) :
    t.Rings moved (id :: ys) b := by
  constructor
  case head =>
    cases hc : xs ++ id :: ys with
    | nil => simp at hc
    | cons p ps =>
      obtain ⟨hpm, hpb⟩ := (hids p).mp (hc ▸ List.mem_cons_self)
      rw [hc] at hp
      exact ⟨p, hpm, hpb, hp.1⟩
  case link =>
    intro j hj hjb hjrest
    have hjx : j ∈ xs := (List.mem_append.mp ((hids j).mpr ⟨hj, hjb⟩)).resolve_right hjrest
    obtain ⟨as, bs, rfl⟩ := List.append_of_mem hjx
    rw [List.append_assoc, List.cons_append] at hp hids
    -- `id` is behind `j`, so `j` is not the last
    cases hc : bs ++ id :: ys with
    | nil => simp at hc
    | cons next qs =>
      have hlink := hp.link_of_append
      rw [hc, List.head?_cons] at hlink
      obtain ⟨hnext, hnb⟩ := (hids next).mp (by simp [hc])
      exact ⟨next, hnext, hnb, hlink⟩

section
variable (hbucket : u.bucketOf = t.bucketOf) (hhead : u.head b = t.head b)
  (hlinks : ∀ id, t.bucketOf id = b → u.arena.link id = t.arena.link id)
include hbucket hhead hlinks

theorem Ends.frame (h : t.Ends moved b) : u.Ends moved b := by
  obtain ⟨ids, hp, hids⟩ := h
  refine ⟨ids, ?_, fun j => by rw [hbucket, hids]⟩
  rw [hhead]
  exact hp.congr fun j hj => hlinks j ((hids j).mp hj).2

theorem Rings.frame (h : t.Rings moved rest b) : u.Rings moved rest b where
  head := by rw [hbucket, hhead]; exact h.head
  link {j} hj hjb hjrest := by
    rw [hbucket] at hjb ⊢
    rw [hlinks j hjb]
    exact h.link hj hjb hjrest

end

theorem Housed.turn (h : t.Housed moved) (hid : id ∈ moved)
    (hends : t.Ends moved (t.bucketOf id)) :
    ∃ u, (∀ n, t.arena.carved < n → t.migrateChain n (some id) = .ok () u) ∧ u.Housed moved := by
  obtain ⟨ids, hp, hids⟩ := hends
  obtain ⟨xs, ys, rfl⟩ := List.append_of_mem ((hids id).mpr ⟨hid, rfl⟩)
  have hrest : ∀ j ∈ id :: ys, j ∈ moved ∧ t.bucketOf j = t.bucketOf id := fun j hj =>
    (hids j).mp (List.mem_append_right xs hj)
  obtain ⟨m, -, hy⟩ := Path.append.mp hp
  obtain rfl : m = some id := hy.1
  obtain ⟨u, hturn, hring, hheads, hlinks⟩ := (Rings.of_path hp hids).turn hy hrest
  have hu : ∀ n, t.arena.carved < n → t.migrateChain n (some id) = .ok () u := fun n hn =>
    hturn n (Nat.lt_of_le_of_lt (Arena.length_le_carved hy rfl) hn)
  have hrel := t.relinked_migrateChain (t.arena.carved + 1) (some id)
  have hsize := t.size_migrateChain (t.arena.carved + 1) (some id)
  rw [hu _ (Nat.lt_succ_self _), Outcome.state_ok] at hrel hsize
  have hbucket := hrel.bucketOf hsize
  refine ⟨u, hu, h.nodup, fun j hj => ?_, fun k => ?_⟩
  · rw [hrel.arena.carved]
    exact h.index_lt j hj
  · by_cases hk : k = t.bucketOf id
    · exact .inr (hk ▸ hring)
    · have hkept : ∀ j, t.bucketOf j = k → u.arena.link j = t.arena.link j := fun j hj =>
        hlinks j (hj ▸ hk)
      exact (h.chain k).imp (Ends.frame hbucket (hheads k hk) hkept)
        (Rings.frame hbucket (hheads k hk) hkept)

/-- Along one chain: an entry that was not moved yet is moved, which happens once for each; the
first one that was settles whether there is an end. -/
theorem Housed.migrateChain (h : t.Housed moved) (hn : 2 * t.arena.carved < n + moved.length)
    (c : Option EntryId) :
    (∀ m, (t.migrateChain m c).result = .error .endless) ∨
      ∃ o, (∀ m, n ≤ m → t.migrateChain m c = o) ∧ ∀ u, o = .ok () u → ∃ moved, u.Housed moved := by
  induction n generalizing t moved c with
  | zero =>
    have := h.length_le
    omega
  | succ n ih =>
    cases c with
    | none =>
      refine .inr ⟨.ok () t, fun m _ => by cases m <;> rfl, fun u hu => ?_⟩
      obtain ⟨-, rfl⟩ := Outcome.ok.inj hu
      exact ⟨moved, h⟩
    | some id =>
      cases he : t.arena.get? id with
      | none =>
        refine .inr ⟨.fail (.notAllocated id) t, fun m hm => ?_, by simp⟩
        obtain ⟨m, rfl⟩ : ∃ k, m = k + 1 := ⟨m - 1, by omega⟩
        simp [Table.migrateChain, he]
      | some e =>
        by_cases hid : id ∈ moved
        · rcases h.chain (t.bucketOf id) with hends | hrings
          · have hcarved := h.length_le
            obtain ⟨u, hu, hhoused⟩ := h.turn hid hends
            refine .inr ⟨.ok () u, fun m hm => hu m (by omega), fun v hv => ?_⟩
            obtain ⟨-, rfl⟩ := Outcome.ok.inj hv
            exact ⟨moved, hhoused⟩
          · exact .inl (hrings.endless hid rfl)
        · have hcarved := (relinked_prepend (t.hashToIndex e.hash) he).arena.carved
          rcases ih (h.prepend he hid) (by rw [hcarved, List.length_cons]; omega) e.next with
            hall | ⟨o, ho, hok⟩
          · refine .inl fun m => ?_
            cases m with
            | zero => rfl
            | succ m => simpa only [Table.migrateChain, he] using hall m
          · refine .inr ⟨o, fun m hm => ?_, hok⟩
            obtain ⟨m, rfl⟩ : ∃ k, m = k + 1 := ⟨m - 1, by omega⟩
            simpa only [Table.migrateChain, he] using ho m (by omega)

theorem housed_clear (t : Table α) (hn : 0 < n) : (t.clear n hn).Housed [] where
  nodup := List.nodup_nil
  index_lt := by simp
  chain b := .inl ⟨[], by simp, by simp⟩

theorem Housed.migrate (h : t.Housed moved) {m : Nat} (hn : 2 * t.arena.carved < n) (hm : n ≤ m)
    (heads : List (Option EntryId)) (hend : (t.migrate m heads).result ≠ .error .endless) :
    t.migrate n heads = t.migrate m heads := by
  induction heads generalizing t moved with
  | nil => rfl
  | cons c rest ih =>
    rw [Table.migrate] at hend ⊢
    rw [Table.migrate]
    rcases h.migrateChain (n := n) (by omega) c with hall | ⟨o, ho, hok⟩
    · have hc := hall m
      cases hmc : t.migrateChain m c with
      | ok _ u => simp [hmc] at hc
      | fail f u =>
        rw [hmc] at hc hend
        exact absurd hc hend
    · have hn' := ho n (Nat.le_refl n)
      have hm' := ho m hm
      rw [hn', hm']
      rw [hm'] at hend
      cases o with
      | fail f u => rfl
      | ok _ u =>
        obtain ⟨moved, hu⟩ := hok u rfl
        have hrel := t.relinked_migrateChain m c
        rw [hm', Outcome.state_ok] at hrel
        exact ih hu (by rwa [hrel.arena.carved]) hend

/-- The bound of a resize cuts only migrations that never end: what ends within a larger one ends
within it, in the same way. -/
theorem migrate_of_migrationBound_le (t : Table α) (hn : 0 < n) {m : Nat}
    (hm : t.migrationBound ≤ m)
    (hend : ((t.clear n hn).migrate m t.buckets.toList).result ≠ .error .endless) :
    (t.clear n hn).migrate t.migrationBound t.buckets.toList =
      (t.clear n hn).migrate m t.buckets.toList :=
  (housed_clear t hn).migrate (Nat.lt_succ_self _) hm _ hend

end Table

end ChainedTable
