import AnarchNet.Lib.Effect
import AnarchNet.Lib.Recency

/-!
# The cache of a function

`lru_cache_base` keeps the records of the keys that were accessed last. The functions follow
`lru_cache.h`. The order of the container is that of its right view, so the record used least
recently is at its beginning. `access_run` says what any sequence of accesses returns and leaves in
the container, and on which keys the function was evaluated.
-/

namespace AnarchNet

open EStateM Recency

/-- `lru_cache_base`: the container holds each key once and at most as many records as the
capacity, which is not zero. The keys on which the function was evaluated are noted. -/
structure LruCache (K V : Type) where
  capacity : Nat
  capacity_pos : 0 < capacity
  container : List (K × V)
  keys_nodup : (container.map Prod.fst).Nodup
  size_le : container.length ≤ capacity
  evaluated : List K

namespace LruCache

variable {K V ε : Type}

/-- The constructor. -/
def create (capacity : Nat) (hcapacity : 0 < capacity) : LruCache K V where
  capacity := capacity
  capacity_pos := hcapacity
  container := []
  keys_nodup := List.nodup_nil
  size_le := Nat.zero_le _
  evaluated := []

/-- The records that are left when `insert` has made space. -/
def spared (cache : LruCache K V) : List (K × V) :=
  if cache.container.length = cache.capacity then cache.container.tail else cache.container

/-- There is space then. -/
theorem length_spared_lt (cache : LruCache K V) : cache.spared.length < cache.capacity := by
  have hpos := cache.capacity_pos
  have hsize := cache.size_le
  unfold spared
  split
  · rw [List.length_tail]
    omega
  · omega

/-- What is left has each key once. -/
theorem nodup_spared (cache : LruCache K V) : (cache.spared.map Prod.fst).Nodup := by
  unfold spared
  split
  · exact cache.keys_nodup.sublist ((List.tail_sublist _).map _)
  · exact cache.keys_nodup

/-- Note an evaluation. -/
def counted (cache : LruCache K V) (k : K) : LruCache K V :=
  { cache with evaluated := cache.evaluated ++ [k] }

@[simp] theorem capacity_counted (cache : LruCache K V) (k : K) :
    (cache.counted k).capacity = cache.capacity := rfl

@[simp] theorem container_counted (cache : LruCache K V) (k : K) :
    (cache.counted k).container = cache.container := rfl

@[simp] theorem evaluated_counted (cache : LruCache K V) (k : K) :
    (cache.counted k).evaluated = cache.evaluated ++ [k] := rfl

variable [DecidableEq K]

/-- `insert`: make space, and put a new record at the end. A key that is there already is not
inserted again. -/
def insert (cache : LruCache K V) (k : K) (v : V) : LruCache K V :=
  if h : k ∈ cache.spared.map Prod.fst then
    { cache with
      container := cache.spared
      keys_nodup := cache.nodup_spared
      size_le := cache.length_spared_lt.le }
  else
    { cache with
      container := cache.spared ++ [(k, v)]
      keys_nodup := by
        rw [List.map_append, List.map_singleton, List.nodup_append]
        refine ⟨cache.nodup_spared, List.nodup_singleton _, ?_⟩
        rintro key hkey other hother rfl
        rw [List.mem_singleton.1 hother] at hkey
        exact h hkey
      size_le := by
        rw [List.length_append, List.length_singleton]
        exact cache.length_spared_lt }

/-- `relocate` to the end of the right view. -/
def relocate (cache : LruCache K V) (k : K) : LruCache K V where
  capacity := cache.capacity
  capacity_pos := cache.capacity_pos
  container := cache.container.filter (·.1 ≠ k) ++ cache.container.filter (·.1 = k)
  keys_nodup := by
    refine (List.Perm.nodup_iff (List.Perm.map _ ?_)).2 cache.keys_nodup
    refine List.perm_append_comm.trans ?_
    simpa using List.filter_append_perm (fun record : K × V => decide (record.1 = k)) cache.container
  size_le := by
    refine le_of_eq_of_le (List.Perm.length_eq ?_) cache.size_le
    refine List.perm_append_comm.trans ?_
    simpa using List.filter_append_perm (fun record : K × V => decide (record.1 = k)) cache.container
  evaluated := cache.evaluated

/-- Evaluate the cached function, which may throw. -/
def evaluate (fn : K → Except ε V) (k : K) : EStateM ε (LruCache K V) V := do
  modify fun cache => cache.counted k
  match fn k with
  | .ok v => return v
  | .error fault => throw fault

/-- `operator()`. -/
def access (fn : K → Except ε V) (k : K) : EStateM ε (LruCache K V) V := do
  let cache ← get
  match cache.container.lookup k with
  | none => do
      let v ← evaluate fn k
      modify fun cache => cache.insert k v
      return v
  | some v => do
      modify fun cache => cache.relocate k
      return v

/-- `get_keys`: the most recently used key first. -/
def getKeys (cache : LruCache K V) : List K := (cache.container.reverse).map Prod.fst

/-- What one access returns or throws, and the cache afterwards. -/
def step (fn : K → Except ε V) (cache : LruCache K V) (k : K) : Except ε V × LruCache K V :=
  match (access fn k).run cache with
  | .ok v after => (.ok v, after)
  | .error fault after => (.error fault, after)

/-- A sequence of accesses: what each of them returns or throws, and the cache afterwards. -/
def run (fn : K → Except ε V) (cache : LruCache K V) (accesses : List K) :
    List (Except ε V) × LruCache K V :=
  accesses.foldl (fun state k =>
    (state.1 ++ [(step fn state.2 k).1], (step fn state.2 k).2)) ([], cache)

/-- The keys on which the function returns a value. -/
def succeeds (fn : K → Except ε V) (k : K) : Bool := (fn k).isOk

/-- The keys that the cache should hold, the one used last first: the first ones of those accessed
with success. -/
def fresh (fn : K → Except ε V) (capacity : Nat) (accesses : List K) : List K :=
  (recent (accesses.filter (succeeds fn))).take capacity

/-- The accesses whose key is not among the keys that the cache should hold just before. -/
def missed (fn : K → Except ε V) (capacity : Nat) (accesses : List K) : List K :=
  (accesses.zipIdx.filter fun access =>
    access.1 ∉ fresh fn capacity (accesses.take access.2)).map Prod.fst

/-- One more access is missed or not. -/
theorem missed_snoc (fn : K → Except ε V) (capacity : Nat) (accesses : List K) (k : K) :
    missed fn capacity (accesses ++ [k]) =
      missed fn capacity accesses ++ if k ∈ fresh fn capacity accesses then [] else [k] := by
  have hfront : (accesses.zipIdx.filter fun access =>
        access.1 ∉ fresh fn capacity ((accesses ++ [k]).take access.2)) =
      accesses.zipIdx.filter fun access =>
        access.1 ∉ fresh fn capacity (accesses.take access.2) := by
    refine List.filter_congr fun access haccess => ?_
    have hindex : access.2 < accesses.length := by
      simpa using (List.mem_zipIdx haccess).2.1
    rw [List.take_append_of_le_length hindex.le]
  rw [missed, List.zipIdx_append, List.filter_append, hfront, List.map_append, ← missed]
  congr 1
  by_cases hmem : k ∈ fresh fn capacity accesses <;> simp [hmem]

/-- What a sequence of accesses has left in the cache. -/
structure Tracks (fn : K → Except ε V) (accesses : List K) (cache : LruCache K V) : Prop where
  keys : cache.container.map Prod.fst = (fresh fn cache.capacity accesses).reverse
  values : ∀ record ∈ cache.container, fn record.1 = .ok record.2
  evaluated : cache.evaluated = missed fn cache.capacity accesses

section Steps

variable {fn : K → Except ε V} {cache : LruCache K V} {k : K} {accesses : List K}

/-- Looking a key up finds a record of it. -/
theorem mem_of_lookup {records : List (K × V)} {v : V} (h : records.lookup k = some v) :
    (k, v) ∈ records := by
  obtain ⟨left, right, hsplit, -⟩ := List.lookup_eq_some_iff.1 h
  simp [hsplit]

/-- Looking a key up finds nothing if there is no record of it. -/
theorem not_mem_of_lookup {records : List (K × V)} (h : records.lookup k = none) :
    k ∉ records.map Prod.fst := by
  intro hmem
  obtain ⟨record, hrecord, rfl⟩ := List.mem_map.1 hmem
  rw [List.lookup_eq_none_iff] at h
  simpa using h record hrecord

/-- An access to a key that is in the cache. -/
theorem step_hit {v : V} (h : cache.container.lookup k = some v) :
    step fn cache k = (.ok v, cache.relocate k) := by
  simp [step, access, h]

/-- An access to a key that is not there and on which the function throws. -/
theorem step_throw {fault : ε} (h : cache.container.lookup k = none) (hfn : fn k = .error fault) :
    step fn cache k =
      (.error fault, cache.counted k) := by
  simp [step, access, evaluate, h, hfn]

/-- An access to a key that is not there and on which the function returns a value. -/
theorem step_miss {v : V} (h : cache.container.lookup k = none) (hfn : fn k = .ok v) :
    step fn cache k =
      (.ok v, (cache.counted k).insert k v) := by
  simp [step, access, evaluate, h, hfn]

/-- The keys after a relocation. -/
theorem keys_relocate (h : k ∈ cache.container.map Prod.fst) :
    (cache.relocate k).container.map Prod.fst =
      touch cache.capacity (cache.container.map Prod.fst) k := by
  have hlast : ((cache.container.filter (·.1 = k)).map Prod.fst) = [k] := by
    have hfilter := List.filter_map (f := Prod.fst) (p := (· = k)) (l := cache.container)
    rw [show (cache.container.filter (·.1 = k)).map Prod.fst =
      (cache.container.map Prod.fst).filter (· = k) from hfilter.symm]
    rw [List.filter_eq, List.count_eq_one_of_mem cache.keys_nodup h, List.replicate_one]
  rw [relocate, List.map_append, hlast, touch, if_pos h, List.filter_map]
  rfl

/-- The keys after an insertion. -/
theorem keys_insert (cache : LruCache K V) {v : V} (h : k ∉ cache.container.map Prod.fst) :
    (cache.insert k v).container.map Prod.fst =
      touch cache.capacity (cache.container.map Prod.fst) k := by
  have hnot : k ∉ cache.spared.map Prod.fst := by
    unfold spared
    split
    · exact fun hmem => h (((List.tail_sublist _).map _).subset hmem)
    · exact h
  rw [insert, dif_neg hnot, touch, if_neg h, List.map_append, List.length_map, spared]
  split <;> simp

/-- An insertion keeps the capacity. -/
@[simp] theorem capacity_insert (cache : LruCache K V) (k : K) (v : V) :
    (cache.insert k v).capacity = cache.capacity := by
  unfold insert
  split <;> rfl

/-- An insertion evaluates nothing. -/
@[simp] theorem evaluated_insert (cache : LruCache K V) (k : K) (v : V) :
    (cache.insert k v).evaluated = cache.evaluated := by
  unfold insert
  split <;> rfl

/-- The records after an insertion are old or new. -/
theorem mem_insert {v : V} {record : K × V} (h : record ∈ (cache.insert k v).container) :
    record ∈ cache.container ∨ record = (k, v) := by
  have hspared : ∀ other ∈ cache.spared, other ∈ cache.container := by
    intro other hother
    unfold spared at hother
    split at hother
    · exact List.mem_of_mem_tail hother
    · exact hother
  unfold insert at h
  split at h
  · exact Or.inl (hspared _ h)
  · rcases List.mem_append.1 h with hold | hnew
    · exact Or.inl (hspared _ hold)
    · exact Or.inr (List.mem_singleton.1 hnew)

/-- The records after a relocation are the old ones. -/
theorem mem_relocate {record : K × V} (h : record ∈ (cache.relocate k).container) :
    record ∈ cache.container := by
  rcases List.mem_append.1 h with h | h <;> exact List.mem_of_mem_filter h

/-- A key that the cache should hold is one on which the function returns a value. -/
theorem succeeds_of_mem_fresh {capacity : Nat} (h : k ∈ fresh fn capacity accesses) :
    succeeds fn k = true := by
  have hmem := mem_recent.1 (List.mem_of_mem_take h)
  exact (List.mem_filter.1 hmem).2

/-- The keys that the cache should hold after an access that succeeds. -/
theorem fresh_snoc (h : succeeds fn k = true) :
    (fresh fn cache.capacity (accesses ++ [k])).reverse =
      touch cache.capacity (fresh fn cache.capacity accesses).reverse k := by
  rw [fresh, fresh, touch_recent cache.capacity_pos, List.filter_append]
  simp [h]

/-- An access that throws does not count. -/
theorem fresh_snoc_throw {capacity : Nat} (h : succeeds fn k = false) :
    fresh fn capacity (accesses ++ [k]) = fresh fn capacity accesses := by
  rw [fresh, fresh, List.filter_append]
  simp [h]

/-- One access returns what the function returns, and the cache holds what it should hold. -/
theorem Tracks.step (h : Tracks fn accesses cache) (k : K) :
    (LruCache.step fn cache k).1 = fn k ∧
      (LruCache.step fn cache k).2.capacity = cache.capacity ∧
      Tracks fn (accesses ++ [k]) (LruCache.step fn cache k).2 := by
  have hmem : k ∈ cache.container.map Prod.fst ↔ k ∈ fresh fn cache.capacity accesses := by
    rw [h.keys, List.mem_reverse]
  cases hlookup : cache.container.lookup k with
  | some v =>
      have hrecord := mem_of_lookup hlookup
      have hkey := List.mem_map_of_mem (f := Prod.fst) hrecord
      rw [step_hit hlookup]
      refine ⟨(h.values _ hrecord).symm, rfl, ?_, fun record hold =>
        h.values record (mem_relocate hold), ?_⟩
      · rw [keys_relocate hkey, h.keys]
        exact (fresh_snoc (succeeds_of_mem_fresh (hmem.1 hkey))).symm
      · rw [missed_snoc, if_pos (show k ∈ fresh fn (cache.relocate k).capacity accesses from
          hmem.1 hkey), List.append_nil]
        exact h.evaluated
  | none =>
      have hkey := not_mem_of_lookup hlookup
      have hmissed : missed fn cache.capacity (accesses ++ [k]) =
          missed fn cache.capacity accesses ++ [k] := by
        rw [missed_snoc, if_neg fun hfresh => hkey (hmem.2 hfresh)]
      cases hfn : fn k with
      | error fault =>
          have hfails : succeeds fn k = false := by simp [succeeds, hfn, Except.isOk, Except.toBool]
          rw [step_throw hlookup hfn]
          refine ⟨rfl, rfl, ?_, h.values, ?_⟩
          · rw [fresh_snoc_throw hfails]
            exact h.keys
          · rw [capacity_counted, hmissed, ← h.evaluated, evaluated_counted]
      | ok v =>
          have hsucceeds : succeeds fn k = true := by
            simp [succeeds, hfn, Except.isOk, Except.toBool]
          rw [step_miss hlookup hfn]
          refine ⟨rfl, by simp, ?_, fun record hrecord => ?_, ?_⟩
          · rw [capacity_insert, capacity_counted, fresh_snoc hsucceeds, ← h.keys]
            exact (cache.counted k).keys_insert hkey
          · rcases mem_insert hrecord with hold | rfl
            · exact h.values record hold
            · exact hfn
          · rw [evaluated_insert, capacity_insert, capacity_counted, hmissed, ← h.evaluated]
            rfl

/-- A sequence of accesses returns what the function returns, and the cache holds what it should
hold. -/
theorem Tracks.run (fn : K → Except ε V) {cache : LruCache K V} (h : Tracks fn [] cache)
    (accesses : List K) :
    (LruCache.run fn cache accesses).1 = accesses.map fn ∧
      (LruCache.run fn cache accesses).2.capacity = cache.capacity ∧
      Tracks fn accesses (LruCache.run fn cache accesses).2 := by
  induction accesses using List.reverseRecOn with
  | nil => exact ⟨rfl, rfl, h⟩
  | append_singleton accesses k ih =>
      obtain ⟨houtcomes, hcapacity, htracks⟩ := ih
      obtain ⟨houtcome, hsame, hafter⟩ := htracks.step k
      have hrun : LruCache.run fn cache (accesses ++ [k]) =
          ((LruCache.run fn cache accesses).1 ++
            [(LruCache.step fn (LruCache.run fn cache accesses).2 k).1],
            (LruCache.step fn (LruCache.run fn cache accesses).2 k).2) := by
        rw [LruCache.run, List.foldl_append]
        rfl
      rw [hrun]
      refine ⟨?_, hsame.trans hcapacity, hafter⟩
      rw [houtcomes, houtcome, List.map_append, List.map_singleton]

end Steps

/-- Every sequence of accesses to a new cache returns or throws what the function does. Afterwards
the container holds each key once and no more records than the capacity, all of them records of the
function. Its keys, the most recently used first, are the first ones in the order of the last
access with success, and the function was evaluated once for each access whose key was not among
these keys just before. -/
theorem access_run (fn : K → Except ε V) (capacity : Nat) (hcapacity : 0 < capacity)
    (accesses : List K) :
    (run fn (create capacity hcapacity) accesses).1 = accesses.map fn ∧
      (run fn (create capacity hcapacity) accesses).2.container.length ≤ capacity ∧
      ((run fn (create capacity hcapacity) accesses).2.container.map Prod.fst).Nodup ∧
      (∀ record ∈ (run fn (create capacity hcapacity) accesses).2.container,
        fn record.1 = .ok record.2) ∧
      (run fn (create capacity hcapacity) accesses).2.getKeys =
        (recent (accesses.filter (succeeds fn))).take capacity ∧
      (run fn (create capacity hcapacity) accesses).2.evaluated = missed fn capacity accesses := by
  have hnew : Tracks fn [] (create capacity hcapacity : LruCache K V) := by
    refine ⟨?_, fun record hrecord => ?_, rfl⟩
    · simp [create, fresh]
    · simp [create] at hrecord
  obtain ⟨houtcomes, hsame, htracks⟩ := hnew.run fn accesses
  have hsize := (run fn (create capacity hcapacity) accesses).2.size_le
  have hkeys := htracks.keys
  have hevaluated := htracks.evaluated
  rw [hsame] at hsize hkeys hevaluated
  refine ⟨houtcomes, hsize, (run fn (create capacity hcapacity) accesses).2.keys_nodup,
    htracks.values, ?_, hevaluated⟩
  rw [getKeys, List.map_reverse, hkeys, List.reverse_reverse]
  rfl

/-- A function that throws on zero. -/
def tenfold (key : Nat) : Except Unit Nat := if key = 0 then .error () else .ok (10 * key)

/-- Six keys in a cache of five records: the first one is evaluated again when it is used again, and
the third one has to go then. -/
theorem access_run_first_again :
    (run tenfold (create 5 (by decide)) [1, 2, 3, 4, 5, 0, 6, 2, 1]).2.getKeys = [1, 2, 6, 5, 4] ∧
      (run tenfold (create 5 (by decide)) [1, 2, 3, 4, 5, 0, 6, 2, 1]).2.evaluated =
        [1, 2, 3, 4, 5, 0, 6, 1] := by
  obtain ⟨-, -, -, -, hkeys, hevaluated⟩ :=
    access_run tenfold 5 (by decide) [1, 2, 3, 4, 5, 0, 6, 2, 1]
  exact ⟨hkeys.trans (by decide), hevaluated.trans (by decide)⟩

end LruCache

end AnarchNet
