import WorldToPE.Engine.DbIter
import WorldToPE.Engine.DbRun

/-!
# WorldToPE.Engine.DbScan — iterating over the database

`DBImpl::NewIterator`: a `DBIter` over the merging iterator over the iterators of the tables.  With
`newIterator_spec`, an iterator of the database and its lookups agree, in every state that a run reaches.
-/

namespace Leveldb

open Cursor Versions

/-- What a `MemTableIterator` gives: the internal keys with their values. -/
def MemTable.entries (m : MemTable) : List Entry :=
  m.table.map fun e => ((entrySlice e).1, (entrySlice (entrySlice e).2).1)

namespace DbImpl

/-- `NewInternalIterator` and `NewDBIterator` over the iterators of the tables. -/
def newIterator {σ : Type} (it : Iter σ Entry Slice) (s : UInt64) (fuel : ℕ) :
    Iter (Option (DBIter (Merger σ))) Entry Slice :=
  DBIter.iterator (Merger.iter (internalKeyComparator bytewiseComparator) it) s fuel

section Entries

variable {m : MemTable} {l : History}

theorem mem_entries_iff (h : m.Represents l) (e : Entry) :
    e ∈ m.entries ↔ e ∈ l.map DBIter.internalEntry := by
  have hentry {v : Version Slice Slice} (hv : v ∈ l) :
      ((entrySlice (MemTable.entryOf v)).1,
        (entrySlice (entrySlice (MemTable.entryOf v)).2).1) = DBIter.internalEntry v := by
    rw [MemTable.value_entryOf (h.fits v hv), MemTable.entrySlice_entryOf (h.fits v hv)]
    rfl
  unfold MemTable.entries
  rw [List.mem_map, List.mem_map]
  constructor
  · rintro ⟨b, hb, rfl⟩
    obtain ⟨v, hv, rfl⟩ := (h.mem_iff b).mp hb
    exact ⟨v, hv, (hentry hv).symm⟩
  · rintro ⟨v, hv, rfl⟩
    exact ⟨MemTable.entryOf v, (h.mem_iff _).mpr ⟨v, hv, rfl⟩, hentry hv⟩

theorem sorted_entries (h : m.Represents l) :
    Sorted (internalKeyComparator bytewiseComparator).compare Prod.fst m.entries := by
  unfold Sorted MemTable.entries
  rw [List.pairwise_map]
  exact h.ascending

theorem nodup_of_sorted {cmp : Slice → Slice → Ordering} [Std.ReflCmp cmp] {l : List Entry}
    (h : Sorted cmp Prod.fst l) : l.Nodup :=
  h.imp fun {a b} hlt he => by
    have hself : cmp b.1 b.1 = .eq := Std.ReflCmp.compare_self
    rw [he, hself] at hlt
    cases hlt

theorem internalEntry_inj {v w : Version Slice Slice} (hv : v.seq < 2 ^ 56) (hw : w.seq < 2 ^ 56)
    (h : DBIter.internalEntry v = DBIter.internalEntry w) : v.key = w.key ∧ v.seq = w.seq := by
  have hparse := DBIter.parse_internalEntry hv
  rw [h, DBIter.parse_internalEntry hw] at hparse
  have heq := Option.some.inj hparse
  refine ⟨(congrArg ParsedInternalKey.user_key heq).symm, ?_⟩
  have hseq := congrArg (fun k => k.sequence.toNat) heq
  simp only [UInt64.toNat_ofNat_of_lt' (lt_trans hv (by norm_num)),
    UInt64.toNat_ofNat_of_lt' (lt_trans hw (by norm_num))] at hseq
  exact hseq.symm

/-- A table has the internal entries of its versions. -/
theorem perm_entries (h : m.Represents l) (hasc : Versions.Ascending l) :
    (l.map DBIter.internalEntry).Perm m.entries := by
  refine (List.perm_ext_iff_of_nodup ?_ (nodup_of_sorted (sorted_entries h))).mpr fun e => (mem_entries_iff h e).symm
  unfold List.Nodup
  rw [List.pairwise_map]
  refine hasc.imp_of_mem fun {v w} hv hw hlt he => ?_
  have := (internalEntry_inj (h.fits v hv).2.2 (h.fits w hw).2.2 he).2
  omega

theorem perm_flatten_entries {tables : List MemTable} {ls : List History}
    (h : List.Forall₂ MemTable.Represents tables ls) (hasc : ∀ l ∈ ls, Versions.Ascending l) :
    (ls.flatten.map DBIter.internalEntry).Perm (tables.map MemTable.entries).flatten := by
  induction h with
  | nil => exact List.Perm.nil
  | @cons m l tables ls hm _ ih =>
    rw [List.flatten_cons, List.map_append, List.map_cons, List.flatten_cons]
    exact (perm_entries hm (hasc l List.mem_cons_self)).append
      (ih fun l hl => hasc l (List.mem_cons_of_mem _ hl))

end Entries

/-- All versions, in the order of their internal keys. -/
def internalSort (l : History) : History :=
  l.mergeSort fun v w => bytewiseComparator.compare v.key w.key = .lt ∨ v.key = w.key ∧ w.seq ≤ v.seq

theorem internalOrder_internalSort {l : History} (hasc : Versions.Ascending l) :
    DBIter.InternalOrder (internalSort l) := by
  have hperm : (internalSort l).Perm l := List.mergeSort_perm l _
  have hne : (internalSort l).Pairwise fun v w => v.seq ≠ w.seq :=
    (hperm.symm.pairwise_iff fun hab hba => hab hba.symm).mp (hasc.imp fun hlt => hlt.ne)
  have hsorted : (internalSort l).Pairwise fun v w =>
      decide (bytewiseComparator.compare v.key w.key = .lt ∨ v.key = w.key ∧ w.seq ≤ v.seq) = true := by
    refine List.pairwise_mergeSort ?_ ?_ l
    · intro a b c hab hbc
      rw [decide_eq_true_iff] at hab hbc ⊢
      rcases hab with hab | ⟨hab, hle⟩ <;> rcases hbc with hbc | ⟨hbc, hle'⟩
      · exact Or.inl (Std.TransCmp.lt_trans hab hbc)
      · exact Or.inl (hbc ▸ hab)
      · exact Or.inl (hab ▸ hbc)
      · exact Or.inr ⟨hab.trans hbc, hle'.trans hle⟩
    · intro a b
      rw [Bool.or_eq_true, decide_eq_true_iff, decide_eq_true_iff]
      cases hc : bytewiseComparator.compare a.key b.key with
      | lt => exact Or.inl (Or.inl rfl)
      | gt => exact Or.inr (Or.inl (Std.OrientedCmp.lt_of_gt hc))
      | eq =>
        have hkey : a.key = b.key := Std.LawfulEqCmp.eq_of_compare hc
        rcases le_total b.seq a.seq with hle | hle
        · exact Or.inl (Or.inr ⟨hkey, hle⟩)
        · exact Or.inr (Or.inr ⟨hkey.symm, hle⟩)
  refine (hsorted.and hne).imp fun {v w} hvw => ?_
  rcases of_decide_eq_true hvw.1 with hlt | ⟨hkey, hle⟩
  · exact Or.inl hlt
  · exact Or.inr ⟨hkey, lt_of_le_of_ne hle (Ne.symm hvw.2)⟩

/-- The tables together hold the internal entries of the sorted history. -/
theorem merged_internalSort {tables : List MemTable} {ls : List History}
    (h : List.Forall₂ MemTable.Represents tables ls) (hasc : Versions.Ascending ls.reverse.flatten) :
    Merging.Merged (internalKeyComparator bytewiseComparator) (tables.map MemTable.entries)
        ((internalSort ls.reverse.flatten).map DBIter.internalEntry) ∧
      ∀ v ∈ internalSort ls.reverse.flatten, v.seq < 2 ^ 56 := by
  have hperm : (internalSort ls.reverse.flatten).Perm ls.flatten :=
    (List.mergeSort_perm _ _).trans (List.reverse_perm ls).flatten
  have hfits : ∀ v ∈ ls.flatten, v.seq < 2 ^ 56 := by
    intro v hv
    obtain ⟨l, hl, hv⟩ := List.mem_flatten.mp hv
    obtain ⟨j, hj⟩ := List.mem_iff_getElem?.mp hl
    obtain ⟨hj', rfl⟩ := List.getElem?_eq_some_iff.mp hj
    exact ((h.get (by rw [h.length_eq]; exact hj') hj').fits v hv).2.2
  have hsmall : ∀ v ∈ internalSort ls.reverse.flatten, v.seq < 2 ^ 56 := fun v hv =>
    hfits v (hperm.mem_iff.mp hv)
  have hsrc : DBIter.Source (internalSort ls.reverse.flatten) := ⟨internalOrder_internalSort hasc, hsmall⟩
  refine ⟨⟨DBIter.sorted_internal hsrc, ?_, ?_⟩, hsmall⟩
  · intro lj hlj
    obtain ⟨m, hm, rfl⟩ := List.mem_map.mp hlj
    obtain ⟨j, hj⟩ := List.mem_iff_getElem?.mp hm
    obtain ⟨hj', rfl⟩ := List.getElem?_eq_some_iff.mp hj
    exact sorted_entries (h.get hj' (by rw [← h.length_eq]; exact hj'))
  · refine (hperm.map _).trans (perm_flatten_entries h fun l hl => ?_)
    exact (List.pairwise_flatten.mp hasc).1 l (List.mem_reverse.mpr hl)

/-- **Iterating and looking up agree**: in every state that a run reaches, an iterator of the database at any
number, made over iterators of the tables, is a cursor in a sorted list that has exactly the keys
and values that `Get` finds at this number. -/
theorem newIterator_spec {σ : Type} {it : Iter σ Entry Slice} {es : List Event} {db : DbImpl} {children : List σ}
    {s : UInt64} {fuel : ℕ} (hvalid : ∀ e ∈ es, e.Valid) (hcount : (es.map Event.ops).sum < 2 ^ 56)
    (hrun : new.run es = some db)
    (hchildren : List.Forall₂ (fun c (m : MemTable) =>
      ∃ p, At (entryLt (internalKeyComparator bytewiseComparator)) m.entries it c p) children
      (db.mem :: db.imm.toList ++ db.tables))
    (hs : s ≤ kMaxSequenceNumber)
    (hfuel : ((db.mem :: db.imm.toList ++ db.tables).map MemTable.entries).flatten.length < fuel) :
    ∃ l : List Entry, Sorted bytewiseComparator.compare Prod.fst l ∧
      (∀ k x : Slice, k.length + 8 < 2 ^ 32 → ((k, x) ∈ l ↔ db.get k s = .ok x)) ∧
      At (entryLt bytewiseComparator) l (newIterator it s fuel) (some (DBIter.new (newMergingIterator children)))
        l.length := by
  have hnew : Matches ((es.map Event.ops).sum + 0) new Abs.new := matches_new hcount
  obtain ⟨a, -, h⟩ := hnew.run hvalid hrun
  obtain ⟨ls, hls, hflat⟩ := h.sources
  have hasc := h.ascending
  rw [← hflat] at hasc
  obtain ⟨hmerged, hsmall⟩ := merged_internalSort hls hasc
  rw [hflat] at hmerged hsmall
  have hperm : (internalSort a.history).Perm a.history := List.mergeSort_perm _ _
  have horder : DBIter.InternalOrder (internalSort a.history) := internalOrder_internalSort h.ascending
  obtain ⟨p, hmerging⟩ : ∃ p, DBIter.Inner (Merger.iter (internalKeyComparator bytewiseComparator) it)
      (internalSort a.history) (newMergingIterator children) p :=
    Merger.at_new hmerged (List.forall₂_map_right_iff.mpr hchildren)
  have hlen : (internalSort a.history).length < fuel := by
    rwa [← hmerged.perm.length_eq, List.length_map] at hfuel
  have hsim := @DBIter.simulates _ (Merger.iter (internalKeyComparator bytewiseComparator) it) s _
    ⟨horder, hsmall⟩ hs fuel hlen
  refine ⟨DBIter.live (internalSort a.history) s.toNat, DBIter.sorted_live horder, fun k x hk => ?_,
    hsim.at ⟨_, rfl, rfl, ⟨_, hmerging⟩, Or.inl ⟨rfl, rfl⟩⟩⟩
  have hread : Versions.read (internalSort a.history) k s.toNat = Versions.read a.history k s.toNat :=
    congrArg (fun v => v.bind Version.val) (newest_congr horder.distinct fun v => hperm.mem_iff)
  rw [DBIter.mem_live_iff horder.distinct, hread, h.get hk hs]
  unfold report
  cases Versions.read a.history k s.toNat with
  | none => simp
  | some y => simp

/-- After one write, with cursors for the iterators of the tables. -/
theorem newIterator_spec_put : ∃ es db, es =
      [.arrive ⟨0, some (WriteBatch.clear.put [1] [2]), false⟩, .commit .ok, .switchMemTable] ∧
    new.run es = some db ∧ ∃ l : List Entry, Sorted bytewiseComparator.compare Prod.fst l ∧
      (∀ k x : Slice, k.length + 8 < 2 ^ 32 → ((k, x) ∈ l ↔ db.get k 1 = .ok x)) ∧
      At (entryLt bytewiseComparator) l
        (newIterator (ofList (entryLt (internalKeyComparator bytewiseComparator))) 1
          (((db.mem :: db.imm.toList ++ db.tables).map MemTable.entries).flatten.length + 1))
        (some (DBIter.new (newMergingIterator
          ((db.mem :: db.imm.toList ++ db.tables).map fun m => (m.entries, 0))))) l.length := by
  have hput : (⟨0, some (WriteBatch.clear.put [1] [2]), false⟩ : Request).Valid := by
    rintro b hb
    obtain rfl := Option.some.inj hb
    exact ⟨[.put [1] [2]], .put [1] [2] .clear (by decide) (by decide), by decide, by decide⟩
  have hputOps : (WriteBatch.clear.put [1] [2]).iterate.1 = [.put [1] [2]] :=
    congrArg Prod.fst ((WriteBatch.holds_clear.put [1] [2]).iterate (by decide))
  obtain ⟨es, hes⟩ : ∃ es : List Event, es =
    [.arrive ⟨0, some (WriteBatch.clear.put [1] [2]), false⟩, .commit .ok, .switchMemTable] := ⟨_, rfl⟩
  obtain ⟨db, hdb⟩ : ∃ db, new.run es = some db := by
    rw [hes]
    exact ⟨_, rfl⟩
  refine ⟨es, db, hes, hdb, newIterator_spec ?_ ?_ hdb ?_ (by decide) (Nat.lt_succ_self _)⟩
  · rw [hes]
    simp [Event.Valid, hput]
  · rw [hes]
    simp [Event.ops, Request.ops, hputOps]
  · rw [List.forall₂_map_left_iff]
    exact List.forall₂_same.mpr fun m _ => ⟨0, at_ofList (Nat.zero_le _)⟩

end DbImpl

end Leveldb
