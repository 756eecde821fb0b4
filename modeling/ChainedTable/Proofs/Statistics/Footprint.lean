import ChainedTable.Statistics.Basic
import ChainedTable.Proofs.Statistics.Doubles
import ChainedTable.Proofs.Verification

set_option autoImplicit false

namespace ChainedTable

structure Summary.Samples (s : Summary) (counts : List Nat) : Prop where
  num : s.num = counts.length
  sum : s.sum = countFloat counts.sum
  minimum : counts ≠ [] → ∃ m, IsLeast {k | k ∈ counts} m ∧ s.minimum = countFloat m
  maximum : counts ≠ [] → ∃ m, IsGreatest {k | k ∈ counts} m ∧ s.maximum = countFloat m

namespace Summary

variable {s : Summary} {counts : List Nat} {n : Nat}

theorem samples_zero : zero.Samples [] where
  num := rfl
  sum := rfl
  minimum := by simp
  maximum := by simp

theorem Samples.add (h : s.Samples counts) (hlt : counts.sum + n < exactLimit) :
    (s.add (countFloat n)).Samples (counts ++ [n]) := by
  have hn : n < exactLimit := Nat.lt_of_le_of_lt (Nat.le_add_left n counts.sum) hlt
  have hsmall : ∀ {k : Nat}, k ∈ counts → k < exactLimit := fun hk =>
    Nat.lt_of_le_of_lt (Nat.le_trans (List.le_sum_of_mem hk) (Nat.le_add_right _ n)) hlt
  have hset : {k | k ∈ counts ++ [n]} = insert n {k | k ∈ counts} := by
    ext k
    simp [or_comm]
  constructor
  case num => simp [h.num]
  case sum =>
    rw [List.sum_append, List.sum_singleton, ← countFloat_add hlt, ← h.sum]
    rfl
  case minimum =>
    intro _
    rw [hset]
    by_cases hnil : counts = []
    · subst hnil
      exact ⟨n, by simp, by simp [Summary.add, h.num]⟩
    · obtain ⟨m, hleast, hm⟩ := h.minimum hnil
      refine ⟨min n m, hleast.insert n, ?_⟩
      have hnum : s.num ≠ 0 := by simp [h.num, hnil]
      rw [Nat.min_comm, ← smaller_countFloat (hsmall hleast.1) hn, ← hm]
      exact if_neg hnum
  case maximum =>
    intro _
    rw [hset]
    by_cases hnil : counts = []
    · subst hnil
      exact ⟨n, by simp, by simp [Summary.add, h.num]⟩
    · obtain ⟨m, hgreatest, hm⟩ := h.maximum hnil
      refine ⟨max n m, hgreatest.insert n, ?_⟩
      have hnum : s.num ≠ 0 := by simp [h.num, hnil]
      rw [Nat.max_comm, ← larger_countFloat (hsmall hgreatest.1) hn, ← hm]
      exact if_neg hnum

end Summary

variable {α : Type} {size : α → Nat} {total : Nat} {asked : Array α}

theorem askSizes_of_lt (l : List (Linked α))
    (h : total + ((l.map fun x => x.2.literal).map size).sum < wordLimit) :
    askSizes size l total asked = .ok (total + ((l.map fun x => x.2.literal).map size).sum)
      (asked ++ l.map fun x => x.2.literal) := by
  induction l generalizing total asked with
  | nil => simp [askSizes]
  | cons x rest ih =>
    obtain ⟨id, e⟩ := x
    rw [List.map_cons, List.map_cons, List.sum_cons, ← Nat.add_assoc] at h ⊢
    have hadd : addWord total (size e.literal) = .ok (total + size e.literal) :=
      addWord_eq_ok.mpr ⟨rfl, Nat.lt_of_le_of_lt (Nat.le_add_right _ _) h⟩
    rw [askSizes, hadd, Outcome.ofExcept_ok, Outcome.bind_ok, ih h]
    simp

theorem askSizes_of_le (l : List (Linked α)) (htotal : total < wordLimit)
    (h : wordLimit ≤ total + ((l.map fun x => x.2.literal).map size).sum) :
    ∃ asked', askSizes size l total asked = .fail .additionOverflow asked' := by
  induction l generalizing total asked with
  | nil =>
    rw [List.map_nil, List.map_nil, List.sum_nil] at h
    omega
  | cons x rest ih =>
    obtain ⟨id, e⟩ := x
    rw [List.map_cons, List.map_cons, List.sum_cons, ← Nat.add_assoc] at h
    by_cases hx : total + size e.literal < wordLimit
    · rw [askSizes, addWord_eq_ok.mpr ⟨rfl, hx⟩]
      exact ih hx h
    · rw [askSizes, addWord_eq_error.mpr ⟨rfl, Nat.le_of_not_lt hx⟩]
      exact ⟨_, rfl⟩

namespace Table

variable {t : Table α} {summary : Summary} {i : Nat} {is counts : List Nat}
  {chains : Nat → List EntryId}

def lengthsOf (t : Table α) (is : List Nat) : List Nat := is.map fun i => (t.walk i).visited.length

theorem lengthsOf_cons (t : Table α) (i : Nat) (is : List Nat) :
    t.lengthsOf (i :: is) = (t.walk i).visited.length :: t.lengthsOf is := rfl

theorem literalsOf_cons (t : Table α) (i : Nat) (is : List Nat) :
    t.literalsOf (i :: is) = ((t.walk i).visited.map fun x => x.2.literal) ++ t.literalsOf is := rfl

/-- Chains that end are sampled, and the sizes of their literals added up, as long as both sums stay
in range. -/
theorem askChains_of_lt (size : α → Nat) (is : List Nat) (total : Nat) (asked : Array α)
    (hclosed : ∀ i ∈ is, (t.walk i).ending = .closed)
    (hs : summary.Samples counts) (hcount : counts.sum + (t.lengthsOf is).sum < exactLimit)
    (htotal : total + ((t.literalsOf is).map size).sum < wordLimit) :
    ∃ s, t.askChains size is summary total asked =
        .ok (s, total + ((t.literalsOf is).map size).sum) (asked ++ t.literalsOf is) ∧
      s.Samples (counts ++ t.lengthsOf is) := by
  induction is generalizing summary counts total asked with
  | nil => exact ⟨summary, by simp [askChains, literalsOf], by simpa [lengthsOf] using hs⟩
  | cons i rest ih =>
    obtain ⟨hi, hrest⟩ := List.forall_mem_cons.mp hclosed
    rw [lengthsOf_cons, List.sum_cons, ← Nat.add_assoc] at hcount
    rw [literalsOf_cons, List.map_append, List.sum_append, ← Nat.add_assoc] at htotal ⊢
    have hhere : askSizes size (t.walk i).visited total asked = _ :=
      askSizes_of_lt _ (Nat.lt_of_le_of_lt (Nat.le_add_right _ _) htotal)
    have hadd := hs.add (Nat.lt_of_le_of_lt (Nat.le_add_right _ _) hcount)
    -- the rest is sampled on top of this chain, with what is left of both ranges
    obtain ⟨s, hask, hsamples⟩ := ih _ (asked ++ (t.walk i).visited.map fun x => x.2.literal)
      hrest hadd (by simpa using hcount) htotal
    have hasked : asked ++ ((t.walk i).visited.map fun x => x.2.literal) ++ t.literalsOf rest =
        asked ++ (((t.walk i).visited.map fun x => x.2.literal) ++ t.literalsOf rest) :=
      Array.toList_inj.mp (by simp)
    refine ⟨s, ?_, ?_⟩
    · simp only [askChains, hhere, hi, Ending.checkCount, Ending.check, Outcome.bind_ok,
        Outcome.ofExcept_ok, hask, hasked]
    · simpa [lengthsOf_cons] using hsamples

theorem askChains_of_le (hclosed : ∀ i ∈ is, (t.walk i).ending = .closed)
    (htotal : total < wordLimit) (h : wordLimit ≤ total + ((t.literalsOf is).map size).sum) :
    ∃ asked', t.askChains size is summary total asked = .fail .additionOverflow asked' := by
  induction is generalizing summary total asked with
  | nil =>
    rw [literalsOf, List.flatMap_nil, List.map_nil, List.sum_nil] at h
    omega
  | cons i rest ih =>
    obtain ⟨hi, hrest⟩ := List.forall_mem_cons.mp hclosed
    rw [literalsOf_cons, List.map_append, List.sum_append, ← Nat.add_assoc] at h
    -- the sum leaves the words on this chain or on a later one
    by_cases hhere :
        total + (((t.walk i).visited.map fun x => x.2.literal).map size).sum < wordLimit
    · simp only [askChains, askSizes_of_lt _ hhere, hi, Ending.checkCount, Ending.check,
        Outcome.bind_ok, Outcome.ofExcept_ok]
      exact ih hrest hhere h
    · obtain ⟨asked', hask⟩ := askSizes_of_le _ htotal (Nat.le_of_not_lt hhere)
      exact ⟨asked', by rw [askChains, hask, Outcome.bind_fail]⟩

/-- What the statistics say of a table with these chains, whose literals have these sizes. The
summary holds counts as doubles. -/
structure Measured [SlotSize α] (t : Table α) (chains : Nat → List EntryId) (size : α → Nat)
    (s : Statistics) : Prop where
  num : s.summary.num = t.size
  sum : s.summary.sum = countFloat (t.linked chains).length
  minimum : ∃ m, IsLeast {n | ∃ i < t.size, (chains i).length = n} m ∧
    s.summary.minimum = countFloat m
  maximum : ∃ m, IsGreatest {n | ∃ i < t.size, (chains i).length = n} m ∧
    s.summary.maximum = countFloat m
  numberOfBuckets : s.numberOfBuckets = t.size
  numberOfEntries : s.numberOfEntries = (t.linked chains).length
  literalBytes : s.literalBytes = ((t.literalsOf (List.range t.size)).map size).sum
  bucketBytes : s.bucketBytes = t.size * bytesPerBucket
  entryBytes : s.entryBytes = (t.linked chains).length * SlotSize.bytes α
  totalFootprint : s.totalFootprint = s.literalBytes + s.bucketBytes + s.entryBytes

def footprint [SlotSize α] (t : Table α) (chains : Nat → List EntryId) (size : α → Nat) : Nat :=
  ((t.literalsOf (List.range t.size)).map size).sum + t.size * bytesPerBucket +
    (t.linked chains).length * SlotSize.bytes α

theorem Arranged.lengthsOf_eq (h : t.Arranged chains) (is : List Nat) :
    t.lengthsOf is = is.map fun i => (chains i).length := by
  refine List.map_congr_left fun i _ => ?_
  rw [← (h.walk i).2, Walk.ids, List.length_map]

theorem Arranged.sum_lengthsOf (h : t.Arranged chains) :
    (t.lengthsOf (List.range t.size)).sum = (t.linked chains).length := by
  rw [h.lengthsOf_eq, linked, List.length_flatMap]

theorem ofSummary_of_lt {literals slot : Nat} (traffic : Traffic)
    (hbuckets : summary.num * bytesPerBucket < wordLimit)
    (hentries : floatCount summary.sum * slot < wordLimit)
    (h : literals + summary.num * bytesPerBucket + floatCount summary.sum * slot < wordLimit) :
    ∃ s, Statistics.ofSummary summary literals slot traffic = .ok s ∧ s.summary = summary ∧
      s.numberOfBuckets = summary.num ∧ s.numberOfEntries = floatCount summary.sum ∧
      s.literalBytes = literals ∧ s.bucketBytes = summary.num * bytesPerBucket ∧
      s.entryBytes = floatCount summary.sum * slot ∧
      s.totalFootprint = s.literalBytes + s.bucketBytes + s.entryBytes := by
  have hpart := Nat.lt_of_le_of_lt (Nat.le_add_right _ _) h
  rw [Statistics.ofSummary, mulWord_eq_ok.mpr ⟨rfl, hbuckets⟩, mulWord_eq_ok.mpr ⟨rfl, hentries⟩]
  simp only [bind, Except.bind, addWord_eq_ok.mpr ⟨rfl, hpart⟩, addWord_eq_ok.mpr ⟨rfl, h⟩]
  exact ⟨_, rfl, rfl, rfl, rfl, rfl, rfl, rfl, rfl⟩

theorem ofSummary_of_le {literals slot : Nat} (traffic : Traffic)
    (hbuckets : summary.num * bytesPerBucket < wordLimit)
    (hentries : floatCount summary.sum * slot < wordLimit)
    (h : wordLimit ≤ literals + summary.num * bytesPerBucket + floatCount summary.sum * slot) :
    Statistics.ofSummary summary literals slot traffic = .error .additionOverflow := by
  rw [Statistics.ofSummary, mulWord_eq_ok.mpr ⟨rfl, hbuckets⟩, mulWord_eq_ok.mpr ⟨rfl, hentries⟩]
  by_cases hpart : literals + summary.num * bytesPerBucket < wordLimit
  · simp only [bind, Except.bind, addWord_eq_ok.mpr ⟨rfl, hpart⟩, addWord_eq_error.mpr ⟨rfl, h⟩]
  · simp only [bind, Except.bind, addWord_eq_error.mpr ⟨rfl, Nat.le_of_not_lt hpart⟩]

theorem Arranged.askChains_eq (h : t.Arranged chains)
    (hlt : ((t.literalsOf (List.range t.size)).map size).sum < wordLimit) :
    ∃ s, t.askChains size (List.range t.size) .zero 0 #[] =
        .ok (s, ((t.literalsOf (List.range t.size)).map size).sum)
          (t.literalsOf (List.range t.size)).toArray ∧
      s.Samples (t.lengthsOf (List.range t.size)) ∧
      s.num = t.size ∧ floatCount s.sum = (t.linked chains).length := by
  have hsmall : (t.linked chains).length < exactLimit :=
    Nat.lt_of_le_of_lt h.length_linked_le (by decide)
  obtain ⟨s, hask, hs⟩ := askChains_of_lt size (List.range t.size) 0 #[]
    (fun i _ => (h.walk i).1) Summary.samples_zero (by simpa [h.sum_lengthsOf] using hsmall)
    (by simpa using hlt)
  rw [List.nil_append] at hs
  refine ⟨s, by simpa using hask, hs, ?_, ?_⟩
  · rw [hs.num, h.lengthsOf_eq, List.length_map, List.length_range]
  · rw [hs.sum, h.sum_lengthsOf, floatCount_countFloat hsmall]

theorem Arranged.statistics_of_le [SlotSize α] (h : t.Arranged chains)
    (hbuckets : t.size * bytesPerBucket < wordLimit)
    (hentries : (t.linked chains).length * SlotSize.bytes α < wordLimit)
    (hle : wordLimit ≤ t.footprint chains size) :
    t.statistics size = .error .additionOverflow := by
  by_cases hlt : ((t.literalsOf (List.range t.size)).map size).sum < wordLimit
  · obtain ⟨s, hask, hs, hnum, hread⟩ := h.askChains_eq hlt
    rw [statistics, askStatistics, hask, Outcome.bind_ok,
      ofSummary_of_le _ (by rwa [hnum]) (by rwa [hread]) (by rwa [hnum, hread])]
    rfl
  · obtain ⟨asked, hask⟩ : ∃ asked, t.askChains size (List.range t.size) .zero 0 #[] =
        .fail .additionOverflow asked :=
      askChains_of_le (fun i _ => (h.walk i).1) (by decide) (by simpa using Nat.le_of_not_lt hlt)
    rw [statistics, askStatistics, hask, Outcome.bind_fail, Outcome.result_fail]

theorem Arranged.askStatistics_of_lt [SlotSize α] (h : t.Arranged chains)
    (hbuckets : t.size * bytesPerBucket < wordLimit)
    (hentries : (t.linked chains).length * SlotSize.bytes α < wordLimit)
    (hlt : t.footprint chains size < wordLimit) :
    ∃ s, t.askStatistics size = .ok s (t.literalsOf (List.range t.size)).toArray ∧
      t.Measured chains size s := by
  have hliterals := Nat.lt_of_le_of_lt
    (Nat.le_trans (Nat.le_add_right _ (t.size * bytesPerBucket)) (Nat.le_add_right _ _)) hlt
  obtain ⟨summary, hask, hs, hnum, hread⟩ := h.askChains_eq hliterals
  obtain ⟨s, hof, hsummary, hb, he, hl, hbytes, hentry, htotal⟩ :=
    ofSummary_of_lt t.traffic (by rwa [hnum]) (by rwa [hread]) (by rwa [hnum, hread])
  have hne : t.lengthsOf (List.range t.size) ≠ [] := by
    simpa [h.lengthsOf_eq] using Nat.ne_of_gt t.size_pos
  have hset : {k | k ∈ t.lengthsOf (List.range t.size)} =
      {n | ∃ i < t.size, (chains i).length = n} := by
    ext k
    simp [h.lengthsOf_eq]
  refine ⟨s, ?_, ?_⟩
  · rw [askStatistics, hask, Outcome.bind_ok, hof]
    rfl
  · constructor
    case num => rw [hsummary, hnum]
    case sum => rw [hsummary, hs.sum, h.sum_lengthsOf]
    case minimum => simpa only [hset, hsummary] using hs.minimum hne
    case maximum => simpa only [hset, hsummary] using hs.maximum hne
    case numberOfBuckets => rw [hb, hnum]
    case numberOfEntries => rw [he, hread]
    case literalBytes => exact hl
    case bucketBytes => rw [hbytes, hnum]
    case entryBytes => rw [hentry, hread]
    case totalFootprint => exact htotal

/-- Where the chains end and share no id, the statistics fail exactly if the bytes of the literals,
the buckets and the linked entries add up to no word. Otherwise they measure the table, and the size
of every linked literal is asked for once, in the order of the entries. -/
theorem statistics_measures [SlotSize α] (h : t.Arranged chains) (size : α → Nat)
    (hbuckets : t.size * bytesPerBucket < wordLimit)
    (hentries : (t.linked chains).length * SlotSize.bytes α < wordLimit) :
    (t.statistics size = .error .additionOverflow ↔ wordLimit ≤ t.footprint chains size) ∧
    (t.footprint chains size < wordLimit → ∃ s, t.statistics size = .ok s ∧
      t.Measured chains size s ∧ (t.WellFormed chains → s.numberOfEntries = t.count) ∧
      ∃ literals, t.askStatistics size = .ok s literals ∧
        literals.size = (t.linked chains).length ∧
        ∀ limit, ∃ l, t.entries limit = .ok l ∧
          l.map (fun x => x.2.literal) = literals.toList.take limit) := by
  have hok : t.footprint chains size < wordLimit → ∃ s, t.statistics size = .ok s ∧
      t.Measured chains size s ∧
      t.askStatistics size = .ok s (t.literalsOf (List.range t.size)).toArray := by
    intro hlt
    obtain ⟨s, hask, hmeasured⟩ := h.askStatistics_of_lt hbuckets hentries hlt
    exact ⟨s, by rw [statistics, hask, Outcome.result_ok], hmeasured, hask⟩
  constructor
  · refine ⟨fun herr => Nat.le_of_not_lt fun hlt => ?_, h.statistics_of_le hbuckets hentries⟩
    obtain ⟨s, hs, -⟩ := hok hlt
    simp [hs] at herr
  · intro hlt
    obtain ⟨s, hs, hmeasured, hask⟩ := hok hlt
    refine ⟨s, hs, hmeasured, ?_, _, hask, ?_, ?_⟩
    · intro hw
      rw [hmeasured.numberOfEntries, hw.counted]
    · rw [List.size_toArray, h.length_literals]
    · exact h.entries_literals

theorem statistics_measures_at_limit :
    ∃ (_ : Memory) (t : Table UInt32) (a b c : EntryId) (s : Statistics) (cs : List (Call UInt32)),
      create 3 .symbol = .ok t ∧
      cs = [.newEntry 3 30, .newEntry 5 50, .newSharedEntry 6 60, .addEntry 0 a, .addEntry 2 b,
        .addEntry 0 c] ∧
      (t.run cs).statistics (fun x => x.toNat) = .ok s ∧
      s.numberOfEntries = (t.run cs).count ∧ s.literalBytes = 140 ∧ s.totalFootprint = 200 ∧
      (t.run cs).askStatistics (fun x => x.toNat) = .ok s #[60, 30, 50] ∧
      (t.run cs).statistics (fun x => if x = 50 then wordLimit - 60 else 0) =
        .error .additionOverflow := by
  let mem : Memory := .below 100 (by decide)
  let a : EntryId := .ofIndex 0 (by decide)
  let b : EntryId := .ofIndex 1 (by decide)
  let c : EntryId := .ofIndex 2 (by decide)
  let cs : List (Call UInt32) :=
    [.newEntry 3 30, .newEntry 5 50, .newSharedEntry 6 60, .addEntry 0 a, .addEntry 2 b,
      .addEntry 0 c]
  let t : Table UInt32 := ⟨emptyBuckets 3, 0, .empty, .symbol, .zero, by decide⟩
  have hpass : ((t.run cs).verify "symbols" fun _ => true).result.toOption = some ⟨3, 2, 0⟩ := by
    decide +kernel
  have hw := wellFormed_of_report hpass
  have hb : (t.run cs).size * bytesPerBucket < wordLimit := by decide +kernel
  have he : ((t.run cs).linked fun i => ((t.run cs).walk i).ids).length * SlotSize.bytes UInt32 <
      wordLimit := by decide +kernel
  obtain ⟨-, hfits⟩ := statistics_measures hw.toArranged (fun x => x.toNat) hb he
  obtain ⟨s, hs, hmeasured, hcount, literals, hask, hsize, hlist⟩ := hfits (by decide +kernel)
  obtain ⟨hover, -⟩ :=
    statistics_measures hw.toArranged (fun x => if x = 50 then wordLimit - 60 else 0) hb he
  refine ⟨mem, t, a, b, c, s, cs, rfl, rfl, hs, hcount hw, ?_, ?_, ?_,
    hover.mpr (by decide +kernel)⟩
  · rw [hmeasured.literalBytes]
    decide +kernel
  · rw [hmeasured.totalFootprint, hmeasured.literalBytes, hmeasured.bucketBytes,
      hmeasured.entryBytes]
    decide +kernel
  · have hentries : (((t.run cs).entries 3).map fun l => l.map fun x => x.2.literal).toOption =
        some [60, 30, 50] := by decide +kernel
    have hthree : literals.toList.length = 3 := by
      rw [Array.length_toList, hsize]
      decide +kernel
    obtain ⟨l, hl, hl'⟩ := hlist 3
    rw [List.take_of_length_le (Nat.le_of_eq hthree)] at hl'
    rw [hl, Except.map, hl', Except.toOption, Option.some.injEq] at hentries
    rw [hask, Array.toList_inj.mp hentries]

end Table

end ChainedTable
