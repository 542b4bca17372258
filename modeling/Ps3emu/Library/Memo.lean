import Mathlib.Logic.Function.Basic

/-
  Caches that keep, for every key, the result of the first
  request with that key.  A result is identified with the
  request that it was made for.

  Key definitions include:
    * `Memo.first`
    * `Memo.serve`, `Memo.store`

  Key theorems include:
    * `Memo.serve_first`, `Memo.store_first`
    * `Memo.key_of_first`
    * `Memo.first_congr`
-/

------------------------------------------------------------
-- First Requests
------------------------------------------------------------

namespace Ps3emu

namespace Memo

variable {C K : Type} [DecidableEq K]

/- The first of some requests that has a key. -/
def first
    (key : C → K)
    (requests : List C)
    (k : K) : Option C :=
  requests.find? (fun c => key c == k)

/- The request whose result a cache gives for a request. -/
def serve
    (key : C → K)
    (cache : K → Option C)
    (c : C) : C :=
  (cache (key c)).getD c

/- The cache after a request: a miss is filled in. -/
def store
    (key : C → K)
    (cache : K → Option C)
    (c : C) : K → Option C :=
  match cache (key c) with
  | some _ => cache
  | none => Function.update cache (key c) (some c)

theorem key_of_first
    {key : C → K}
    {requests : List C}
    {k : K}
    {c : C}
    (hFirst : first key requests k = some c) :
    key c = k := by
  have hTest := List.find?_some hFirst
  rwa [beq_iff_eq] at hTest

theorem first_snoc
    (key : C → K)
    (requests : List C)
    (c : C)
    (k : K) :
    first key (requests ++ [c]) k =
      (first key requests k).or
        (if key c = k then some c else none) := by
  rw [first, List.find?_append]
  congr 1
  by_cases hk : key c = k
  · simp [hk]
  · have hOther : (key c == k) = false :=
      beq_eq_false_iff_ne.mpr hk
    simp [hk, hOther]

/- A cache of first requests serves the first one. -/
theorem serve_first
    (key : C → K)
    (requests : List C)
    (c : C) :
    first key (requests ++ [c]) (key c) =
      some (serve key (first key requests) c) := by
  rw [first_snoc, serve]
  cases first key requests (key c) with
  | none => simp
  | some d => simp

/- And it stays a cache of first requests. -/
theorem store_first
    (key : C → K)
    (requests : List C)
    (c : C) :
    store key (first key requests) c =
      first key (requests ++ [c]) := by
  funext k
  rw [first_snoc, store]
  cases hFound : first key requests (key c) with
  | some d =>
      by_cases hk : key c = k
      · subst hk
        simp [hFound]
      · simp [hk]
  | none =>
      by_cases hk : key c = k
      · subst hk
        simp [hFound]
      · simp [hk, Ne.symm hk]

/- Keys that tell the same requests apart agree. -/
theorem first_congr
    {L : Type}
    [DecidableEq L]
    {key : C → K}
    {other : C → L}
    (hSame : ∀ c d, key c = key d ↔ other c = other d)
    (requests : List C)
    (d : C) :
    first key requests (key d) =
      first other requests (other d) := by
  rw [first, first]
  congr 1
  funext c
  rw [Bool.eq_iff_iff, beq_iff_eq, beq_iff_eq]
  exact hSame c d

end Memo

end Ps3emu
