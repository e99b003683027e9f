import Mathlib.Data.List.Basic
import Mathlib.Data.Nat.Basic
import Mathlib.Tactic.Ring

/-!
# Bijective Numeration

Bijective base-`b` numerals: every natural number has exactly one digit string,
zero is the empty one, and a digit `d < b` stands for `d + 1`. A variable-length
offset field written this way wastes no code word.

- `bijDigits b fuel n`: digits of `n`, least significant first
- `bijValue b ds`: value of a digit string, most significant first
-/

namespace BijectiveNumeral

/-- Digits of `n` in bijective base `b`, least significant first. `n` steps always suffice. -/
def bijDigits (b : ℕ) : ℕ → ℕ → List ℕ
  | 0, _ => []
  | _ + 1, 0 => []
  | fuel + 1, n + 1 => n % b :: bijDigits b fuel (n / b)

/-- Value of a digit string, most significant digit first, on top of `v`. -/
def bijValueFrom (b v : ℕ) (ds : List ℕ) : ℕ :=
  ds.foldl (fun v d => v * b + 1 + d) v

/-- Value of a digit string, most significant digit first. -/
def bijValue (b : ℕ) (ds : List ℕ) : ℕ :=
  bijValueFrom b 0 ds

@[simp] theorem bijValueFrom_nil (b v : ℕ) : bijValueFrom b v [] = v := rfl

@[simp] theorem bijValueFrom_cons (b v d : ℕ) (ds : List ℕ) :
    bijValueFrom b v (d :: ds) = bijValueFrom b (v * b + 1 + d) ds := rfl

theorem bijValue_append_singleton (b d : ℕ) (ds : List ℕ) :
    bijValue b (ds ++ [d]) = bijValue b ds * b + 1 + d := by
  simp [bijValue, bijValueFrom]

/-- A numeral read so far is never larger than the numeral it is the front of. -/
theorem le_bijValueFrom {b : ℕ} (hb : 0 < b) (v : ℕ) (ds : List ℕ) :
    v ≤ bijValueFrom b v ds := by
  induction ds generalizing v with
  | nil => simp
  | cons d ds ih =>
    have hstep : v ≤ v * b + 1 + d := by
      have := Nat.le_mul_of_pos_right v hb
      omega
    exact hstep.trans (ih _)

/-- The digits of `n` denote `n`. -/
theorem bijValue_reverse_bijDigits {b fuel n : ℕ} (h : n ≤ fuel) :
    bijValue b (bijDigits b fuel n).reverse = n := by
  induction fuel generalizing n with
  | zero => simp_all [bijDigits, bijValue]
  | succ fuel ih =>
    cases n with
    | zero => simp [bijDigits, bijValue]
    | succ n =>
      have hle : n / b ≤ fuel := (Nat.div_le_self n b).trans (by omega)
      rw [bijDigits, List.reverse_cons, bijValue_append_singleton, ih hle]
      have hdiv := Nat.div_add_mod n b
      rw [Nat.mul_comm] at hdiv
      omega

theorem bijDigits_lt {b : ℕ} (hb : 0 < b) (fuel n : ℕ) :
    ∀ d ∈ bijDigits b fuel n, d < b := by
  induction fuel generalizing n with
  | zero => simp [bijDigits]
  | succ fuel ih =>
    cases n with
    | zero => simp [bijDigits]
    | succ n =>
      intro d hd
      rcases List.mem_cons.mp hd with rfl | hd
      · exact Nat.mod_lt _ hb
      · exact ih _ d hd

theorem bijDigits_ne_nil {b fuel n : ℕ} (h : 0 < n) (hfuel : n ≤ fuel) :
    bijDigits b fuel n ≠ [] := by
  cases fuel with
  | zero => omega
  | succ fuel =>
    cases n with
    | zero => omega
    | succ n => simp [bijDigits]

end BijectiveNumeral
