import Mathlib.Data.Countable.Basic
import Mathlib.Logic.Equiv.List
import Mathlib.Tactic.DeriveCountable
import Loki.Diem.Types

/-!
# Ideal primitives

The values that are hashed and signed are countable, so that there are hashes without collisions
and signatures that belong to one key and one message.
-/

namespace Loki.Diem

instance {K V : Type} [Ord K] [Std.TransOrd K] [Countable K] [Countable V] :
    Countable (BTreeMap K V) :=
  Function.Injective.countable (f := Std.ExtTreeMap.toList) fun _ _ => Std.ExtTreeMap.toList_inj.mp

deriving instance Countable for ValidatorConsensusInfo, ValidatorVerifier, EpochState, BlockInfo,
  LedgerInfo, LedgerInfoWithSignatures, VoteData, QuorumCert, BlockType, BlockData, Block, Timeout,
  TimeoutSigningRepr, AccumulatorExtensionProof, VoteProposal, Ledger2WaypointConverter,
  TransactionInfo, Hashed, Message

namespace Crypto

/-- No hash is zero, a key is its own public key, and only the code of key and message
verifies. -/
noncomputable def ideal : Crypto where
  hash value := (exists_injective_nat Hashed).choose value + 1
  publicKey key := key
  sign key message := (exists_injective_nat (PrivateKey × Message)).choose (key, message)
  verify key message signature :=
    (exists_injective_nat (PublicKey × Message)).choose (key, message) == signature

theorem ideal_collisionFree : ideal.CollisionFree := by
  intro _ _ h
  exact (exists_injective_nat Hashed).choose_spec (Nat.succ.inj h)

theorem ideal_hash_ne_zero (value : Hashed) : ideal.hash value ≠ HashValue.zero :=
  Nat.succ_ne_zero _

theorem ideal_verify_sign (key : PrivateKey) (message : Message) :
    ideal.verify key message (ideal.sign key message) = true := by
  simp [ideal]

/-- As `ideal`, with hashes that are odd and so differ from the placeholder as well. -/
noncomputable def apart : Crypto :=
  { ideal with hash := fun value => 2 * ideal.hash value + 1 }

theorem apart_collisionFree : apart.CollisionFree := by
  intro _ _ h
  exact ideal_collisionFree (Nat.eq_of_mul_eq_mul_left (by decide) (Nat.succ.inj h))

theorem apart_hash_ne_placeholder (value : Hashed) :
    apart.hash value ≠ accumulatorPlaceholderHash := by
  have hodd : ∀ n : Nat, 2 * n + 1 ≠ accumulatorPlaceholderHash := by
    intro n
    rw [accumulatorPlaceholderHash]
    omega
  exact hodd (ideal.hash value)

end Crypto

end Loki.Diem
