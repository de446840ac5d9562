import Mathlib.Tactic
import Std.Data.ExtTreeMap

/-!
# WorldToPE.Lib.Store — an ordered key-value store with atomic write batches

The store is a finite map ordered by `compare` on the keys (`Std.ExtTreeMap`); iteration visits the
entries in key order.  A batch is a list of puts and deletes applied in order and as a whole.

* `getElem?_applyBatch_of_forall_ne`: a key that no operation of the batch names keeps its value.
* `getElem?_deletes`, `getElem?_puts_of_mem`: batches of deletes only and of puts that agree on a key.
-/

namespace Store

variable {K V : Type} [Ord K] [Std.TransOrd K] [Std.LawfulEqOrd K] [DecidableEq K]

/-- One operation of a write batch. -/
inductive BatchOp (K V : Type)
  | put (k : K) (v : V)
  | delete (k : K)
deriving DecidableEq

/-- The key an operation names. -/
def BatchOp.key : BatchOp K V → K
  | .put k _ => k
  | .delete k => k

/-- The effect of one operation. -/
def BatchOp.apply (db : Std.ExtTreeMap K V) : BatchOp K V → Std.ExtTreeMap K V
  | .put k v => db.insert k v
  | .delete k => db.erase k

/-- The effect of a batch: its operations in order. -/
def applyBatch (db : Std.ExtTreeMap K V) (batch : List (BatchOp K V)) : Std.ExtTreeMap K V :=
  batch.foldl BatchOp.apply db

variable {db : Std.ExtTreeMap K V}

theorem getElem?_insert (k a : K) (v : V) :
    (db.insert k v)[a]? = if k = a then some v else db[a]? := by
  simp [Std.ExtTreeMap.getElem?_insert]

theorem getElem?_erase (k a : K) :
    (db.erase k)[a]? = if k = a then none else db[a]? := by
  simp [Std.ExtTreeMap.getElem?_erase]

omit [Std.LawfulEqOrd K] [DecidableEq K] in
theorem applyBatch_append (b₁ b₂ : List (BatchOp K V)) :
    applyBatch db (b₁ ++ b₂) = applyBatch (applyBatch db b₁) b₂ :=
  List.foldl_append

/-- One operation leaves every other key alone. -/
theorem BatchOp.getElem?_apply_of_ne {op : BatchOp K V} {k : K} (h : op.key ≠ k) :
    (op.apply db)[k]? = db[k]? := by
  cases op with
  | put k' v =>
    have h' : k' ≠ k := h
    rw [BatchOp.apply, getElem?_insert, if_neg h']
  | delete k' =>
    have h' : k' ≠ k := h
    rw [BatchOp.apply, getElem?_erase, if_neg h']

/-- **Frame**: a key that no operation names keeps its value. -/
theorem getElem?_applyBatch_of_forall_ne {batch : List (BatchOp K V)} {k : K}
    (h : ∀ op ∈ batch, op.key ≠ k) : (applyBatch db batch)[k]? = db[k]? := by
  induction batch generalizing db with
  | nil => rfl
  | cons op batch ih =>
    show (applyBatch (op.apply db) batch)[k]? = _
    rw [ih fun o ho => h o (List.mem_cons_of_mem _ ho)]
    exact BatchOp.getElem?_apply_of_ne (h op List.mem_cons_self)

/-- A batch of deletes removes exactly the keys it names. -/
theorem getElem?_deletes (ks : List K) (k : K) :
    (applyBatch db (ks.map .delete))[k]? = if k ∈ ks then none else db[k]? := by
  induction ks generalizing db with
  | nil => simp [applyBatch]
  | cons a ks ih =>
    show (applyBatch (db.erase a) (ks.map .delete))[k]? = _
    rw [ih, getElem?_erase]
    by_cases hk : k ∈ ks
    · simp [hk]
    · by_cases ha : a = k
      · simp [ha]
      · simp [hk, ha, Ne.symm ha]

/-- A batch of puts that agree on `k` stores their value. -/
theorem getElem?_puts_of_mem {kvs : List (K × V)} {k : K} {v : V} (hv : ∀ p ∈ kvs, p.1 = k → p.2 = v)
    (hk : k ∈ kvs.map Prod.fst) :
    (applyBatch db (kvs.map fun p => .put p.1 p.2))[k]? = some v := by
  induction kvs generalizing db with
  | nil => cases hk
  | cons p kvs ih =>
    show (applyBatch (db.insert p.1 p.2) (kvs.map fun p => .put p.1 p.2))[k]? = _
    by_cases hm : k ∈ kvs.map Prod.fst
    · exact ih (fun q hq => hv q (List.mem_cons_of_mem _ hq)) hm
    · have hp : p.1 = k := by
        rcases List.mem_cons.mp hk with h | h
        · exact h.symm
        · exact absurd h hm
      rw [getElem?_applyBatch_of_forall_ne, getElem?_insert, if_pos hp, hv p List.mem_cons_self hp]
      intro op hop
      obtain ⟨q, hq, rfl⟩ := List.mem_map.mp hop
      exact fun he => hm (List.mem_map.mpr ⟨q, hq, he⟩)

/-- A batch of puts leaves every key it does not name alone. -/
theorem getElem?_puts_of_not_mem {kvs : List (K × V)} {k : K} (h : k ∉ kvs.map Prod.fst) :
    (applyBatch db (kvs.map fun p => .put p.1 p.2))[k]? = db[k]? := by
  apply getElem?_applyBatch_of_forall_ne
  intro op hop
  obtain ⟨q, hq, rfl⟩ := List.mem_map.mp hop
  intro he
  exact h (List.mem_map.mpr ⟨q, hq, he⟩)

end Store
