import Mathlib.Logic.Function.Basic

/-!
# Caches that are invalidated by hand

A cache holds some entries of a table.  It does not notice when the table
changes: an entry that changes has to be thrown out of the cache.
-/

namespace Cache

variable {κ ν : Type*} [DecidableEq κ]

/-- All that is cached is what the table has. -/
def Coherent (cache table : κ → Option ν) : Prop :=
  ∀ k v, cache k = some v → table k = some v

/-- A lookup that goes to the table only for what is not cached. -/
def lookup (cache table : κ → Option ν) (k : κ) : Option ν :=
  (cache k).or (table k)

def invalidate (cache : κ → Option ν) (k : κ) : κ → Option ν :=
  Function.update cache k none

def fill (cache table : κ → Option ν) (k : κ) : κ → Option ν :=
  Function.update cache k (lookup cache table k)

variable {cache table table' : κ → Option ν}

omit [DecidableEq κ] in
theorem Coherent.empty (table : κ → Option ν) :
    Coherent (fun _ => none) table := by
  intro k v h
  cases h

omit [DecidableEq κ] in
/-- A coherent cache is not noticed. -/
theorem Coherent.lookup_eq (hcache : Coherent cache table) (k : κ) :
    lookup cache table k = table k := by
  unfold lookup
  cases hk : cache k with
  | none => rfl
  | some v => exact (hcache k v hk).symm

theorem Coherent.fill (hcache : Coherent cache table) (k : κ) :
    Coherent (fill cache table k) table := by
  intro j v hj
  unfold Cache.fill at hj
  rcases eq_or_ne j k with rfl | hne
  · rwa [Function.update_self, hcache.lookup_eq] at hj
  · rw [Function.update_of_ne hne] at hj
    exact hcache j v hj

theorem Coherent.invalidate (hcache : Coherent cache table) (k : κ) :
    Coherent (invalidate cache k) table := by
  intro j v hj
  unfold Cache.invalidate at hj
  rcases eq_or_ne j k with rfl | hne
  · rw [Function.update_self] at hj
    cases hj
  · rw [Function.update_of_ne hne] at hj
    exact hcache j v hj

theorem foldl_invalidate {keys : List κ} {k : κ} {v : ν}
    (hk : keys.foldl Cache.invalidate cache k = some v) :
    k ∉ keys ∧ cache k = some v := by
  induction keys generalizing cache with
  | nil => exact ⟨List.not_mem_nil, hk⟩
  | cons j keys ih =>
      obtain ⟨hkeys, hcached⟩ := ih hk
      unfold Cache.invalidate at hcached
      rcases eq_or_ne k j with rfl | hne
      · rw [Function.update_self] at hcached
        cases hcached
      · rw [Function.update_of_ne hne] at hcached
        exact ⟨by simp [hne, hkeys], hcached⟩

/-- The cache stays coherent with a table that changed at the invalidated keys
only. -/
theorem Coherent.changed (hcache : Coherent cache table) {keys : List κ}
    (htable : ∀ k ∉ keys, table' k = table k) :
    Coherent (keys.foldl Cache.invalidate cache) table' := by
  intro k v hk
  obtain ⟨hkeys, hcached⟩ := foldl_invalidate hk
  rw [htable k hkeys]
  exact hcache k v hcached

end Cache
