import Flurbo.Contracts.LmsrCost
import Flurbo.Library.Holdings

-- The code of other parties that the contracts call, and the context of a call.

open Evm

-- The collateral token, called through SafeERC20. Its transfers move exactly the requested amount,
-- and the balances of two accounts never exceed its total supply, which is a word.
structure Token where
  State            : Type
  decimals         : ℕ
  balanceOf        : State → Address → ℕ
  safeTransfer     : State → (sender recipient : Address) → ℕ → Sol State
  safeTransferFrom : State → (spender owner recipient : Address) → ℕ → Sol State
  supply_lt        : ∀ {t a a'}, a ≠ a' → balanceOf t a + balanceOf t a' < 2 ^ 256
  transfer_ok      : ∀ {t a a' n}, a ≠ a' → a' ≠ 0 → n ≤ balanceOf t a →
                       ∃ t', safeTransfer t a a' n = .ok t'
  transfer_exact   : ∀ {t t' a a' n}, a ≠ a' → safeTransfer t a a' n = .ok t' →
                       n ≤ balanceOf t a ∧ balanceOf t' a = balanceOf t a - n ∧
                       balanceOf t' a' = balanceOf t a' + n
  from_exact       : ∀ {t t' s a a' n}, a ≠ a' → safeTransferFrom t s a a' n = .ok t' →
                       n ≤ balanceOf t a ∧ balanceOf t' a = balanceOf t a - n ∧
                       balanceOf t' a' = balanceOf t a' + n

-- OpenZeppelin's ERC20 with its internal minting and burning, from which the receipts derive.
structure ERC20 where
  State       : Type
  initial     : State
  totalSupply : State → ℕ
  balanceOf   : State → Address → ℕ
  mint        : State → (account : Address) → ℕ → Sol State
  burn        : State → (account : Address) → ℕ → Sol State

structure Dependencies where
  collateral : Token
  receipt    : ERC20
  prb        : PRBMath

-- The block and the accounts as a constructor sees them.
structure Chain where
  chainId   : ℕ
  timestamp : ℕ
  hasCode   : Address → Bool

-- A call to the contract at `target`. No contract here calls itself.
structure Msg (target : Address) where
  sender    : Address
  timestamp : ℕ
  ne_target : sender ≠ target
  ne_zero   : sender ≠ 0

namespace Token

-- The balances of a token that keeps them in a mapping and lets every account spend what it owns.
structure Balances where
  of       : Address → ℕ
  sum_lt   : ∑ a, of a < 2 ^ 256

namespace Balances

def move (b : Balances) (a a' : Address) (n : ℕ) : Address → ℕ :=
  Function.update (Function.update b.of a (b.of a - n)) a' (b.of a' + n)

variable {b b' : Balances} {a a' : Address} {n : ℕ}

theorem sum_move (ha : a ≠ a') (hn : n ≤ b.of a) : ∑ x, b.move a a' n x = ∑ x, b.of x := by
  have h₁ := Holdings.sum_update_add b.of a (b.of a - n)
  have h₂ := Holdings.sum_update_add (Function.update b.of a (b.of a - n)) a' (b.of a' + n)
  rw [Function.update_of_ne ha.symm] at h₂
  rw [move]
  omega

def transfer (b : Balances) (a a' : Address) (n : ℕ) : Sol Balances :=
  if h : a ≠ a' ∧ a' ≠ 0 ∧ n ≤ b.of a then
    .ok ⟨b.move a a' n, (sum_move h.left h.right.right).trans_lt b.sum_lt⟩
  else
    .error .token

theorem transfer_exact (h : b.transfer a a' n = .ok b') :
    n ≤ b.of a ∧ b'.of a = b.of a - n ∧ b'.of a' = b.of a' + n := by
  unfold transfer at h
  split at h
  case isFalse    => cases h
  case isTrue hc =>
    cases h
    refine ⟨hc.right.right, ?_, by simp [move]⟩
    simp [move, Function.update_of_ne hc.left]

theorem supply_lt (h : a ≠ a') : b.of a + b.of a' < 2 ^ 256 := by
  apply lt_of_le_of_lt _ b.sum_lt
  rw [← Finset.sum_pair h]
  exact Finset.sum_le_sum_of_subset (Finset.subset_univ _)

-- The whole supply with one account.
def single (a : Address) (n : ℕ) (h : n < 2 ^ 256) : Balances where
  of x   := if x = a then n else 0
  sum_lt := by rwa [Finset.sum_ite_eq' _ _ _, if_pos (Finset.mem_univ a)]

end Balances

def standard (decimals : ℕ) : Token where
  State                    := Balances
  decimals                 := decimals
  balanceOf b a            := b.of a
  safeTransfer b           := b.transfer
  safeTransferFrom b _     := b.transfer
  supply_lt                := Balances.supply_lt
  transfer_ok h h₀ hn      := ⟨_, dif_pos ⟨h, h₀, hn⟩⟩
  transfer_exact _ h       := Balances.transfer_exact h
  from_exact _ h           := Balances.transfer_exact h

end Token

namespace ERC20

structure Receipts where
  of     : Address → ℕ
  supply : ℕ

def standard : ERC20 where
  State       := Receipts
  initial     := ⟨fun _ => 0, 0⟩
  totalSupply := (·.supply)
  balanceOf   := (·.of)
  mint r a n  := do
    return ⟨Function.update r.of a (r.of a + n), ← checkedAdd 256 r.supply n⟩
  burn r a n  := do
    revertIf (r.of a < n) .token
    return ⟨Function.update r.of a (r.of a - n), r.supply - n⟩

end ERC20

-- Dependencies on which the contracts can be run. The exponential and the logarithm are crude, but
-- good enough for the checks that the contracts make.
def Dependencies.testnet : Dependencies where
  collateral := Token.standard 18
  receipt    := ERC20.standard
  prb        := ⟨fun x => .ok (10 ^ 18 + x), fun x => .ok ((x - 10 ^ 18) * 7 / 10)⟩
