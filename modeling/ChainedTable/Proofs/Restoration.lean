import ChainedTable.Proofs.Growth
import ChainedTable.Proofs.Table.Turnover

set_option autoImplicit false

/-!
Inserting and removing again. Entries that are removed in any order leave no trace on the chains
and in the entries that were there before, however many chains they were spread over. Their slots
are on the free list in the order of the removals; removed last in, first out, from slots that had
been free before, they leave the arena as it was.

In between the new entries are guests: in front of the chain of their hash, the last to come first.
-/

namespace ChainedTable

variable {α : Type}

structure Arena.SameBlocks (a b : Arena α) : Prop where
  carved : b.carved = a.carved
  reserved : b.reserved = a.reserved
  blocks : b.blocks = a.blocks

theorem Arena.SameBlocks.refl (a : Arena α) : a.SameBlocks a := ⟨rfl, rfl, rfl⟩

theorem Arena.SameBlocks.trans {a b c : Arena α} (h : a.SameBlocks b) (k : b.SameBlocks c) :
    a.SameBlocks c :=
  ⟨k.carved.trans h.carved, k.reserved.trans h.reserved, k.blocks.trans h.blocks⟩

theorem Arena.Relinked.sameBlocks {a b : Arena α} (h : Relinked a b) : a.SameBlocks b :=
  ⟨h.carved, h.reserved, h.blocks⟩

theorem Arena.sameBlocks_released (a : Arena α) (id : EntryId) : a.SameBlocks (a.released id) :=
  ⟨carved_released, rfl, rfl⟩

theorem Arena.Threaded.allocate_reuse [SlotSize α] {a b : Arena α} {id i : EntryId}
    {free : List EntryId} {h : UInt32} {x : α} {z : Sizing} (ht : a.Threaded (i :: free))
    (hb : a.allocate h x z = .ok id b) : id = i ∧ a.SameBlocks b := by
  obtain ⟨hh, next, hl, -⟩ := ht.path
  have hreuse : a.allocate h x z = .ok i (a.taken i next (.fresh h x)) :=
    Arena.allocate_reuse hh hl (by simp [ht.count])
  obtain ⟨rfl, rfl⟩ := Outcome.ok.inj (hb.symm.trans hreuse)
  exact ⟨rfl, Arena.carved_taken, rfl, rfl⟩

structure Guest (α : Type) where
  id : EntryId
  hash : UInt32
  literal : α

def Guest.listed (ids : List EntryId) (l : List (UInt32 × α)) : List (Guest α) :=
  ((ids.zip l).map fun y => ⟨y.1, y.2.1, y.2.2⟩).reverse

section
variable {ids : List EntryId} {l : List (UInt32 × α)} {id : EntryId} {hash : UInt32} {x : α}
  {g : Guest α}

theorem Guest.listed_cons :
    listed (id :: ids) ((hash, x) :: l) = listed ids l ++ [⟨id, hash, x⟩] := by simp [listed]

theorem Guest.ids_listed (h : ids.length = l.length) :
    (listed ids l).map Guest.id = ids.reverse := by
  rw [listed, List.map_reverse, List.map_map]
  exact congrArg List.reverse (List.map_fst_zip h.le)

theorem Guest.mem_zip_of_mem (hg : g ∈ listed ids l) : (g.id, g.hash, g.literal) ∈ ids.zip l := by
  obtain ⟨y, hy, rfl⟩ := List.mem_map.mp (List.mem_reverse.mp hg)
  exact hy

end

namespace Table

def removeAll (t : Table α) : List EntryId → Outcome (Table α) (List (Option α))
  | [] => .ok [] t
  | id :: rest => (t.remove id).bind fun x t => (removeAll t rest).map (x :: ·)

def hosting (t : Table α) (chains : Nat → List EntryId) (guests : List (Guest α)) (i : Nat) :
    List EntryId :=
  ((guests.filter fun g => t.hashToIndex g.hash = i).map Guest.id) ++ chains i

/-- `u` is `t` with these guests in front of its chains. Their ids were dead in `t`, and its own
entries are as they were, but for the links along the chains. -/
structure Hosts (t u : Table α) (chains : Nat → List EntryId) (guests : List (Guest α)) :
    Prop where
  size : u.size = t.size
  arranged : u.Arranged (t.hosting chains guests)
  nodup : (guests.map Guest.id).Nodup
  dead : ∀ g ∈ guests, t.arena.get? g.id = none
  content : ∀ g ∈ guests, u.arena.content? g.id = some ⟨g.hash, g.literal, false⟩
  kept : ∀ j, j ∉ guests.map Guest.id → u.arena.content? j = t.arena.content? j
  loose : ∀ j, (∀ i, j ∉ t.hosting chains guests i) → u.arena.link j = t.arena.link j
  count : u.count = t.count + guests.length
  tag : u.tag = t.tag

variable {t u v : Table α} {chains : Nat → List EntryId} {guests : List (Guest α)} {g : Guest α}
  {id : EntryId} {free rest : List EntryId} {i n : Nat}

theorem hosting_cons : t.hosting chains (g :: guests) =
    Function.update (t.hosting chains guests) (t.hashToIndex g.hash)
      (g.id :: t.hosting chains guests (t.hashToIndex g.hash)) := by
  funext k
  by_cases hk : t.hashToIndex g.hash = k
  · subst hk
    simp [hosting]
  · rw [Function.update_of_ne (Ne.symm hk)]
    simp [hosting, hk]

theorem hosting_filter (hoff : ∀ k, id ∉ chains k) :
    t.hosting chains (guests.filter fun g => g.id ≠ id) =
      fun k => (t.hosting chains guests k).filter (· ≠ id) := by
  funext k
  have hchain : (chains k).filter (· ≠ id) = chains k := by
    rw [List.filter_eq_self]
    intro j hj
    exact decide_eq_true fun hje => hoff k (hje ▸ hj)
  rw [hosting, hosting, List.filter_append, hchain, List.filter_map, List.filter_filter,
    List.filter_filter]
  congr 2
  apply List.filter_congr
  intro g _
  exact Bool.and_comm _ _

theorem mem_hosting_self (hg : g ∈ guests) :
    g.id ∈ t.hosting chains guests (t.hashToIndex g.hash) :=
  List.mem_append_left _ (List.mem_map_of_mem (List.mem_filter.mpr ⟨hg, by simp⟩))

theorem mem_hosting_cons (hid : id ∈ t.hosting chains guests i) :
    id ∈ t.hosting chains (g :: guests) i := by
  rw [hosting_cons, Function.update_apply]
  split
  · rename_i hi
    exact List.mem_cons_of_mem _ (hi ▸ hid)
  · exact hid

theorem map_filter_ne (hnd : (guests.map Guest.id).Nodup) (id : EntryId) :
    (guests.filter fun g => g.id ≠ id).map Guest.id = (guests.map Guest.id).erase id := by
  rw [hnd.erase_eq_filter, List.filter_map]
  congr 1
  exact List.filter_congr fun g _ => by simp [bne, beq_eq_decide]

theorem length_filter_ne (hnd : (guests.map Guest.id).Nodup) (hg : g ∈ guests) :
    (guests.filter fun g' => g'.id ≠ g.id).length + 1 = guests.length := by
  have hlen := congrArg List.length (map_filter_ne hnd g.id)
  rw [List.length_map, List.length_erase_of_mem (List.mem_map_of_mem hg), List.length_map] at hlen
  have hpos := List.length_pos_of_mem hg
  omega

namespace Hosts

theorem refl (h : t.Arranged chains) : t.Hosts t chains [] where
  size := rfl
  arranged := h
  nodup := List.nodup_nil
  dead := by simp
  content := by simp
  kept _ _ := rfl
  loose _ _ := rfl
  count := rfl
  tag := rfl

theorem not_mem_of_dead (h : t.Hosts u chains guests) (hid : u.arena.get? id = none) :
    id ∉ guests.map Guest.id := by
  intro hmem
  obtain ⟨g, hg, rfl⟩ := List.mem_map.mp hmem
  have hcontent := h.content g hg
  rw [Arena.content?_eq_none.mpr hid] at hcontent
  simp at hcontent

theorem insert [SlotSize α] (hz : SlotSize.bytes α * maxBlockEntries < wordLimit)
    (h : t.Hosts u chains guests) (hfree : u.arena.Threaded free)
    (htake : takeId free u.arena.carved = some (id, rest, n)) (hcount : u.count + 1 < wordLimit)
    (hroom : u.traffic.added + 1 < wordLimit) (hash : UInt32) (x : α) :
    ∃ v, u.insert hash x = .ok id v ∧ t.Hosts v chains (⟨id, hash, x⟩ :: guests) ∧
      v.arena.Threaded rest ∧ v.arena.carved = n ∧
      v.traffic = ⟨u.traffic.added + 1, u.traffic.removed⟩ ∧
      (free ≠ [] → free = id :: rest ∧ u.arena.SameBlocks v.arena) := by
  obtain ⟨b, hb, hrest, hcarved, hnone, hget⟩ :=
    hfree.allocate (h := hash) (x := x) (z := u.sizing) hz htake
  obtain ⟨v, hv, hrel, hsize, harr, hlink⟩ := h.arranged.insert hb hnone hget hcount hroom
  have hcontent : ∀ j, v.arena.content? j =
      if j = id then some ⟨hash, x, false⟩ else u.arena.content? j := fun j =>
    (hrel.arena.content? j).trans (Arena.content?_fresh hget)
  have hnew : id ∉ guests.map Guest.id := h.not_mem_of_dead hnone
  have hdead : t.arena.get? id = none := by
    rw [← Arena.content?_eq_none, ← h.kept id hnew]
    exact Arena.content?_eq_none.mpr hnone
  have hindex : u.hashToIndex hash = t.hashToIndex hash := by
    rw [hashToIndex, h.size, ← hashToIndex]
  rw [hindex, ← hosting_cons (g := ⟨id, hash, x⟩)] at harr
  refine ⟨v, hv, ?_, hrest.relinked hrel.arena, hrel.arena.carved.trans hcarved, hrel.traffic, ?_⟩
  · constructor
    case size => exact hsize.trans h.size
    case arranged => exact harr
    case nodup => exact List.nodup_cons.mpr ⟨hnew, h.nodup⟩
    case dead => exact List.forall_mem_cons.mpr ⟨hdead, h.dead⟩
    case content =>
      refine List.forall_mem_cons.mpr ⟨by rw [hcontent, if_pos rfl], fun g hg => ?_⟩
      have hne : g.id ≠ id := fun hge => hnew (hge ▸ List.mem_map_of_mem hg)
      rw [hcontent, if_neg hne, h.content g hg]
    case kept =>
      intro j hj
      obtain ⟨hne, hj⟩ : j ≠ id ∧ j ∉ guests.map Guest.id := by simpa using hj
      rw [hcontent, if_neg hne, h.kept j hj]
    case loose =>
      intro j hj
      have hne : j ≠ id := by
        rintro rfl
        exact hj _ (mem_hosting_self List.mem_cons_self)
      rw [hlink j hne, h.loose j fun k hk => hj k (mem_hosting_cons hk)]
    case count =>
      have hone : v.count = u.count + 1 := hrel.count
      rw [hone, h.count, List.length_cons, Nat.add_assoc]
    case tag => exact hrel.tag.trans h.tag
  · intro hne
    obtain ⟨i, free, rfl⟩ := List.exists_cons_of_ne_nil hne
    obtain ⟨rfl, hsame⟩ := hfree.allocate_reuse hb
    exact ⟨by rw [takeId_tail htake, List.tail_cons], hsame.trans hrel.arena.sameBlocks⟩

theorem remove (ht : t.Arranged chains) (h : t.Hosts u chains guests)
    (hfree : u.arena.Threaded free) (hg : g ∈ guests) (hroom : u.traffic.removed + 1 < wordLimit) :
    ∃ v, u.remove g.id = .ok (some g.literal) v ∧
      t.Hosts v chains (guests.filter fun g' => g'.id ≠ g.id) ∧
      v.arena.Threaded (g.id :: free) ∧ v.traffic = ⟨u.traffic.added, u.traffic.removed + 1⟩ ∧
      u.arena.SameBlocks v.arena := by
  obtain ⟨e, he, hcontent⟩ := Arena.content?_eq_some.mp (h.content g hg)
  obtain ⟨hhash, hlit, hshared⟩ := Content.mk.inj hcontent
  have hlt := Arena.index_lt_of_get? he
  have hdead := h.dead g hg
  have hoff : ∀ k, g.id ∉ chains k := ht.not_mem hdead
  have hid : g.id ∈ t.hosting chains guests (u.hashToIndex e.hash) := by
    rw [hashToIndex, hhash, h.size, ← hashToIndex]
    exact mem_hosting_self hg
  have hcount : u.count ≠ 0 := by
    have := h.count
    have := List.length_pos_of_mem hg
    omega
  obtain ⟨v, hv, hrel, hsize, harr, hlink⟩ := h.arranged.remove he hid hshared hcount hroom
  have hcontent : ∀ j, v.arena.content? j =
      if j = g.id then none else u.arena.content? j := fun j =>
    (hrel.arena.content? j).trans (Arena.content?_released hlt)
  have hgone : v.arena.get? g.id = none := by
    rw [← Arena.content?_eq_none, hcontent, if_pos rfl]
  have hids := map_filter_ne h.nodup g.id
  rw [← hosting_filter hoff] at harr
  rw [hlit] at hv
  refine ⟨v, hv, ?_, (hfree.released he).relinked hrel.arena, hrel.traffic,
    (u.arena.sameBlocks_released g.id).trans hrel.arena.sameBlocks⟩
  constructor
  case size => exact hsize.trans h.size
  case arranged => exact harr
  case nodup =>
    rw [hids]
    exact h.nodup.erase _
  case dead => exact fun g' hg' => h.dead g' (List.mem_of_mem_filter hg')
  case content =>
    intro g' hg'
    obtain ⟨hg', hne⟩ := List.mem_filter.mp hg'
    rw [hcontent, if_neg (by simpa using hne), h.content g' hg']
  case kept =>
    intro j hj
    rw [hids, h.nodup.mem_erase_iff] at hj
    rw [hcontent]
    split
    · rename_i hjg
      rw [hjg, Arena.content?_eq_none.mpr hdead]
    · rename_i hjg
      exact h.kept j fun hmem => hj ⟨hjg, hmem⟩
  case loose =>
    intro j hj
    by_cases hjg : j = g.id
    · -- the guest is dead again, as it was in `t`
      rw [hjg, Arena.link_eq_none.mpr hgone, Arena.link_eq_none.mpr hdead]
    · have hout : ∀ k, j ∉ t.hosting chains guests k := by
        intro k hk
        apply hj k
        rw [hosting_filter hoff]
        exact List.mem_filter.mpr ⟨hk, decide_eq_true hjg⟩
      rw [hlink j hout, h.loose j hout]
  case count =>
    have hone : v.count = u.count - 1 := hrel.count
    have hlen := length_filter_ne h.nodup hg
    have hall := h.count
    omega
  case tag => exact hrel.tag.trans h.tag

theorem addAll [SlotSize α] (hz : SlotSize.bytes α * maxBlockEntries < wordLimit)
    {l : List (UInt32 × α)} (h : t.Hosts u chains guests) (hfree : u.arena.Threaded free)
    (hleft : l.length ≤ free.length + (maxEntries - u.arena.carved))
    (hcount : u.count + l.length < wordLimit) (hroom : u.traffic.added + l.length < wordLimit) :
    ∃ ids v, u.addAll Table.insert l = .ok ids v ∧ ids.length = l.length ∧
      t.Hosts v chains (Guest.listed ids l ++ guests) ∧ v.arena.Threaded (free.drop l.length) ∧
      v.traffic = ⟨u.traffic.added + l.length, u.traffic.removed⟩ ∧
      (l.length ≤ free.length → ids = free.take l.length ∧ u.arena.SameBlocks v.arena) := by
  induction l generalizing u guests free with
  | nil => exact ⟨[], u, rfl, rfl, h, hfree, rfl, fun _ => ⟨rfl, .refl _⟩⟩
  | cons y l ih =>
    obtain ⟨hash, x⟩ := y
    rw [List.length_cons] at hleft hcount hroom
    have hsome : (takeId free u.arena.carved).isSome := by
      rw [isSome_takeId, ← List.length_pos_iff]
      omega
    obtain ⟨⟨id, rest, n⟩, htake⟩ := Option.isSome_iff_exists.mp hsome
    obtain ⟨v, hv, hhosts, hrest, hcarved, htraffic, hreuse⟩ :=
      h.insert hz hfree htake (by omega) (by omega) hash x
    have hone := takeId_left htake
    have hcountv : v.count = u.count + 1 := by
      rw [hhosts.count, h.count, List.length_cons, Nat.add_assoc]
    obtain ⟨ids, w, hw, hlen, hhosts, hfree, htrafficw, hsame⟩ :=
      ih hhosts hrest (by omega) (by omega) (by simp only [htraffic]; omega)
    refine ⟨id :: ids, w, by simp [Table.addAll, hv, hw], by simp [hlen], ?_, ?_, ?_, ?_⟩
    · rwa [Guest.listed_cons, List.append_assoc, List.singleton_append]
    · rwa [takeId_tail htake, List.drop_tail] at hfree
    · have hadded : u.traffic.added + 1 + l.length = u.traffic.added + (l.length + 1) := by omega
      simp only [htrafficw, htraffic, hadded, List.length_cons]
    · intro hle
      rw [List.length_cons] at hle
      obtain ⟨hcons, hfirst⟩ := hreuse (List.ne_nil_of_length_pos (by omega))
      rw [hcons, List.length_cons] at hle
      obtain ⟨hids, hothers⟩ := hsame (by omega)
      exact ⟨by rw [hids, hcons, List.length_cons, List.take_succ_cons], hfirst.trans hothers⟩

theorem removeAll (ht : t.Arranged chains) {p : List EntryId} (h : t.Hosts u chains guests)
    (hfree : u.arena.Threaded free) (hp : p.Perm (guests.map Guest.id))
    (hroom : u.traffic.removed + p.length < wordLimit) :
    ∃ xs v, u.removeAll p = .ok xs v ∧
      List.Forall₂ (fun id x => ∃ g ∈ guests, g.id = id ∧ x = some g.literal) p xs ∧
      t.Hosts v chains [] ∧ v.arena.Threaded (p.reverse ++ free) ∧
      v.traffic = ⟨u.traffic.added, u.traffic.removed + p.length⟩ ∧
      u.arena.SameBlocks v.arena := by
  induction p generalizing u guests free with
  | nil =>
    obtain rfl : guests = [] := List.map_eq_nil_iff.mp hp.symm.eq_nil
    exact ⟨[], u, rfl, .nil, h, hfree, rfl, .refl _⟩
  | cons id p ih =>
    rw [List.length_cons] at hroom
    obtain ⟨g, hg, rfl⟩ := List.mem_map.mp (hp.subset List.mem_cons_self)
    obtain ⟨v, hv, hhosts, hfree, htraffic, hsame⟩ := h.remove ht hfree hg (by omega)
    have hrest : p.Perm ((guests.filter fun g' => g'.id ≠ g.id).map Guest.id) := by
      rw [map_filter_ne h.nodup]
      simpa using hp.erase g.id
    obtain ⟨xs, w, hw, hxs, hhosts, hfree, htrafficw, hsamew⟩ :=
      ih hhosts hfree hrest (by simp only [htraffic]; omega)
    refine ⟨some g.literal :: xs, w, by simp [Table.removeAll, hv, hw], ?_, hhosts, ?_, ?_,
      hsame.trans hsamew⟩
    · refine .cons ⟨g, hg, rfl, rfl⟩ (hxs.imp fun j y hguest => ?_)
      obtain ⟨g', hg', hj⟩ := hguest
      exact ⟨g', List.mem_of_mem_filter hg', hj⟩
    · simpa using hfree
    · have hremoved : u.traffic.removed + 1 + p.length = u.traffic.removed + (p.length + 1) := by
        omega
      simp only [htrafficw, htraffic, hremoved, List.length_cons]

theorem get?_eq (ht : t.Arranged chains) (h : t.Hosts u chains []) (id : EntryId) :
    u.arena.get? id = t.arena.get? id :=
  ht.get?_eq h.arranged (fun j => h.kept j (by simp)) h.loose id

end Hosts

structure Restored (t u : Table α) (n : Nat) (free : List EntryId) : Prop where
  buckets : u.buckets = t.buckets
  walk : ∀ i, u.walk i = t.walk i
  get? : ∀ id, u.arena.get? id = t.arena.get? id
  count : u.count = t.count
  tag : u.tag = t.tag
  traffic : u.traffic = ⟨t.traffic.added + n, t.traffic.removed + n⟩
  freeList : u.arena.freeList = free
  freeCount : u.arena.freeCount = free.length

theorem Hosts.restored (ht : t.Arranged chains) (h : t.Hosts u chains [])
    (hfree : u.arena.Threaded free)
    (htraffic : u.traffic = ⟨t.traffic.added + n, t.traffic.removed + n⟩) :
    t.Restored u n free where
  buckets := buckets_eq h.size fun i => (h.arranged.head i).trans (ht.head i).symm
  walk := by
    intro i
    obtain ⟨htend, htids⟩ := ht.walk i
    obtain ⟨huend, huids⟩ := h.arranged.walk i
    exact Arena.walk_eq_of_get?_eq (h.get?_eq ht) (huids.trans htids.symm) (huend.trans htend.symm)
  get? := h.get?_eq ht
  count := h.count
  tag := h.tag
  traffic := htraffic
  freeList := Arena.freeList_of_path hfree.path
  freeCount := hfree.count

/-- With the old free list and no slot carved it is the old table but for the traffic. -/
theorem Restored.eq (h : t.Restored u n free) (ht : t.arena.Threaded free)
    (hu : u.arena.Threaded free) (hsame : t.arena.SameBlocks u.arena) :
    u = { t with traffic := ⟨t.traffic.added + n, t.traffic.removed + n⟩ } := by
  obtain ⟨hlink, hhead, hfree⟩ := ht.free_eq hu
  have harena : u.arena = t.arena :=
    Arena.ext_reading ht.carved_le h.get? hlink hsame.carved hhead hfree hsame.reserved hsame.blocks
  have hbuckets := h.buckets
  have hcount := h.count
  have htag := h.tag
  have htraffic := h.traffic
  cases t
  cases u
  simp_all

theorem WellFormed.count_le (h : t.WellFormed chains) : t.count ≤ t.arena.carved := by
  rw [h.counted]
  refine length_le_of_index_lt h.nodup_linked fun id hid => ?_
  obtain ⟨i, hi⟩ := h.mem_linked.mp hid
  obtain ⟨e, he⟩ := h.live hi
  exact Arena.index_lt_of_get? he

/-- Entries that are inserted and removed again, in any order, come back with their literals and
leave a well formed table as it was but for the free list: the slot freed last is first, and behind
these slots is what the insertions had left of the list. If they took freed slots only and are
removed last in, first out, nothing but the traffic differs. -/
theorem removeAll_addAll [SlotSize α] (hz : SlotSize.bytes α * maxBlockEntries < wordLimit)
    (h : t.WellFormed chains) (hfree : t.arena.Threaded free) {l : List (UInt32 × α)}
    (hleft : l.length ≤ t.arena.idsLeft) (hadded : t.traffic.added + l.length < wordLimit)
    (hremoved : t.traffic.removed + l.length < wordLimit) :
    ∃ ids u, t.addAll Table.insert l = .ok ids u ∧ ids.length = l.length ∧ ids.Nodup ∧
      ∀ p, p.Perm ids → ∃ xs v, u.removeAll p = .ok xs v ∧
        List.Forall₂ (fun id x => ∃ hash y, (id, hash, y) ∈ ids.zip l ∧ x = some y) p xs ∧
        t.Restored v l.length (p.reverse ++ free.drop l.length) ∧
        (l.length ≤ free.length → p = ids.reverse →
          v = { t with traffic :=
            ⟨t.traffic.added + l.length, t.traffic.removed + l.length⟩ }) := by
  have hcarved := hfree.carved_le
  have hcount : t.count + l.length < wordLimit := by
    have := h.count_le
    have := Arena.length_le_carved_free hfree.path
    have := hfree.count
    simp only [Arena.idsLeft, maxEntries, wordLimit] at *
    omega
  rw [Arena.idsLeft, hfree.count] at hleft
  obtain ⟨ids, u, hu, hlen, hhosts, hrest, htraffic, hreuse⟩ :=
    (Hosts.refl h.toArranged).addAll hz hfree hleft hcount hadded
  rw [List.append_nil] at hhosts
  have hids := Guest.ids_listed hlen
  refine ⟨ids, u, hu, hlen, ?_, fun p hp => ?_⟩
  · have hnd := hhosts.nodup
    rwa [hids, List.nodup_reverse] at hnd
  · have hperm : p.Perm ((Guest.listed ids l).map Guest.id) := by
      rw [hids]
      exact hp.trans ids.reverse_perm.symm
    have hplen : p.length = l.length := hp.length_eq.trans hlen
    obtain ⟨xs, v, hv, hxs, hback, hthreaded, htrafficv, hsame⟩ :=
      hhosts.removeAll h.toArranged hrest hperm (by simp only [htraffic]; omega)
    simp only [htraffic, hplen] at htrafficv
    have hrestored := hback.restored h.toArranged hthreaded htrafficv
    have hlits : List.Forall₂ (fun id x => ∃ hash y, (id, hash, y) ∈ ids.zip l ∧ x = some y)
        p xs := by
      refine hxs.imp fun id x hguest => ?_
      obtain ⟨g, hg, rfl, hx⟩ := hguest
      exact ⟨g.hash, g.literal, Guest.mem_zip_of_mem hg, hx⟩
    refine ⟨xs, v, hv, hlits, hrestored, fun hle hrev => ?_⟩
    -- the ids taken from the free list go back on it in the order they had there
    obtain ⟨htake, hcarve⟩ := hreuse hle
    have hold : p.reverse ++ free.drop l.length = free := by
      rw [hrev, List.reverse_reverse, htake, List.take_append_drop]
    rw [hold] at hrestored hthreaded
    exact hrestored.eq hfree hthreaded (hcarve.trans hsame)

theorem removeAll_addAll_reused :
    ∃ (_ : Memory) (t : Table UInt32) (a b c d : EntryId) (cs : List (Call UInt32)),
      create 2 .symbol = .ok t ∧
      cs = [.newEntry 2 20, .newEntry 4 40, .newEntry 1 10, .newEntry 6 60, .addEntry 0 a,
        .addEntry 0 d, .addEntry 0 b, .addEntry 1 c, .unlink 0 b, .freeEntry b, .unlink 0 a,
        .freeEntry a] ∧
      (∃ ids u, (t.run cs).addAll Table.insert [(8, 80), (3, 30), (2, 90)] = .ok ids u ∧
        ids.length = 3 ∧ ∀ p, p.Perm ids → ∃ xs v, u.removeAll p = .ok xs v ∧
          (t.run cs).Restored v 3 p.reverse) ∧
      ∃ ids u xs v, (t.run cs).addAll Table.insert [(8, 80), (3, 30)] = .ok ids u ∧
        u.removeAll ids.reverse = .ok xs v ∧
        v = { t.run cs with
          traffic := ⟨(t.run cs).traffic.added + 2, (t.run cs).traffic.removed + 2⟩ } := by
  let mem : Memory := .below 100 (by decide)
  let a : EntryId := .ofIndex 0 (by decide)
  let b : EntryId := .ofIndex 1 (by decide)
  let c : EntryId := .ofIndex 2 (by decide)
  let d : EntryId := .ofIndex 3 (by decide)
  let cs : List (Call UInt32) :=
    [.newEntry 2 20, .newEntry 4 40, .newEntry 1 10, .newEntry 6 60, .addEntry 0 a, .addEntry 0 d,
      .addEntry 0 b, .addEntry 1 c, .unlink 0 b, .freeEntry b, .unlink 0 a, .freeEntry a]
  let t : Table UInt32 := ⟨emptyBuckets 2, 0, .empty, .symbol, .zero, by decide⟩
  have hok : ((t.results cs).all fun r => r.toOption.isSome) = true := by decide +kernel
  have hpass : ((t.run cs).verify "symbols" fun _ => true).result.toOption = some ⟨2, 1, 0⟩ := by
    decide +kernel
  have hlist : (t.run cs).arena.freeList = [a, b] := by decide +kernel
  obtain ⟨free, hthreaded⟩ := threaded_run Arena.threaded_empty fun id =>
    error_not_mem_of_all_ok hok (.freedTwice id)
  rw [← Arena.freeList_of_path hthreaded.path, hlist] at hthreaded
  have hw := wellFormed_of_report hpass
  obtain ⟨ids, u, hu, hlen, -, hthree⟩ := removeAll_addAll (by decide) hw hthreaded
    (l := [(8, 80), (3, 30), (2, 90)]) (by decide +kernel) (by decide +kernel)
    (by decide +kernel)
  obtain ⟨ids', u', hu', -, -, htwo⟩ := removeAll_addAll (by decide) hw hthreaded
    (l := [(8, 80), (3, 30)]) (by decide +kernel) (by decide +kernel) (by decide +kernel)
  obtain ⟨xs', v', hv', -, -, hsame⟩ := htwo ids'.reverse ids'.reverse_perm
  refine ⟨mem, t, a, b, c, d, cs, rfl, rfl, ⟨ids, u, hu, hlen, fun p hp => ?_⟩, ids', u', xs', v',
    hu', hv', hsame (by decide) rfl⟩
  obtain ⟨xs, v, hv, -, hrestored, -⟩ := hthree p hp
  exact ⟨xs, v, hv, by simpa using hrestored⟩

end Table

end ChainedTable
