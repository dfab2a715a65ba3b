import Mathlib.Data.Nat.Basic
import Mathlib.Tactic.NormNum

/-!
# Constants, failures and `size_t`

The constants of `CommunicationManager.hpp` and `main.cpp`. A call that does
not return either throws, with the text given to `THROW_RUNTIME_ERROR` (the
macro appends the file and the line), or reaches an operation whose behaviour
the language leaves undefined. `size_t` is a natural number below `2 ^ 64`,
with the operations that can wrap written out.
-/
namespace TinyFile

def REGISTRATION_MAX_MSG : ℕ := 10
def REGISTRATION_MSG_SIZE : ℕ := 64
def CLIENT_MAX_MSG : ℕ := 10
def CLIENT_MSG_SIZE : ℕ := 6144
def DEFAULT_PRIORITY : ℕ := 64
def FILE_CREDIT_MULTIPLIER : ℕ := 16536

/-- The internal segment size that `main` passes to `ShmManager::init`. -/
def INTERNAL_REP_SIZE : ℕ := 32

/-- The number of compression threads that `main` starts. -/
def NUM_WORKERS : ℕ := 4

/-- The largest value of an `int`. -/
def INT_MAX : ℕ := 2147483647

inductive Fault where
  | runtimeError (message : String)
  | undefinedBehavior (operation : String)
  deriving DecidableEq, Repr

namespace SizeT

def modulus : ℕ := 2 ^ 64

def add (a b : ℕ) : ℕ := (a + b) % modulus

def sub (a b : ℕ) : ℕ := (a + (modulus - b % modulus)) % modulus

def mul (a b : ℕ) : ℕ := (a * b) % modulus

/-- `--`, which wraps at zero. -/
def pred (a : ℕ) : ℕ := if a = 0 then modulus - 1 else a - 1

theorem pred_of_pos {a : ℕ} (h : 0 < a) : pred a = a - 1 := by
  rw [pred, if_neg (by omega)]

theorem add_of_lt {a b : ℕ} (h : a + b < modulus) : add a b = a + b := Nat.mod_eq_of_lt h

theorem mul_of_lt {a b : ℕ} (h : a * b < modulus) : mul a b = a * b := Nat.mod_eq_of_lt h

theorem sub_of_le {a b : ℕ} (hb : b ≤ a) (ha : a < modulus) : sub a b = a - b := by
  have hbm : b % modulus = b := Nat.mod_eq_of_lt (by omega)
  have he : a + (modulus - b) = (a - b) + modulus := by omega
  rw [sub, hbm, he, Nat.add_mod_right, Nat.mod_eq_of_lt (by omega)]

theorem sub_lt (a b : ℕ) : sub a b < modulus := Nat.mod_lt _ (by norm_num [modulus])

end SizeT

end TinyFile
