import Mathlib.Data.Nat.Basic

/-!
# Places on a circle

`n` places stand in a circle, each followed by the next and the last by the first.  Seen from
the place `s`, `hop n s k` is the place `k` hops on, and `hops n s i` the number of hops to
the place `i`.

`hop_hops` and `hops_hop`: these two are inverse to each other, for fewer than `n` hops.
-/

namespace Acso.Lib

variable {n s : Nat}

/-- The place `k` hops after `s`. -/
def hop (n s k : Nat) : Nat := (s + k) % n

/-- How many hops after `s` the place `i` comes. -/
def hops (n s i : Nat) : Nat := (i + (n - s)) % n

theorem hop_lt (hs : s < n) (k : Nat) : hop n s k < n := Nat.mod_lt _ (by omega)

theorem hops_lt (hs : s < n) (i : Nat) : hops n s i < n := Nat.mod_lt _ (by omega)

theorem hop_zero (hs : s < n) : hop n s 0 = s := Nat.mod_eq_of_lt hs

/-- Once round the circle. -/
theorem hop_size (hs : s < n) : hop n s n = s := by
  rw [hop, Nat.add_mod_right, Nat.mod_eq_of_lt hs]

theorem hop_succ (k : Nat) : hop n s (k + 1) = (hop n s k + 1) % n := by
  rw [hop, hop, Nat.mod_add_mod, Nat.add_assoc]

theorem hop_hops (hs : s < n) {i : Nat} (hi : i < n) : hop n s (hops n s i) = i := by
  rw [hop, hops, Nat.add_mod_mod, show s + (i + (n - s)) = i + n by omega, Nat.add_mod_right,
    Nat.mod_eq_of_lt hi]

theorem hops_hop (hs : s < n) {k : Nat} (hk : k < n) : hops n s (hop n s k) = k := by
  rw [hop, hops, Nat.mod_add_mod, show s + k + (n - s) = k + n by omega, Nat.add_mod_right,
    Nat.mod_eq_of_lt hk]

theorem hop_eq_iff (hs : s < n) {i k : Nat} (hi : i < n) (hk : k < n) :
    hop n s k = i ↔ k = hops n s i := by
  constructor
  · rintro rfl
    rw [hops_hop hs hk]
  · rintro rfl
    exact hop_hops hs hi

end Acso.Lib
