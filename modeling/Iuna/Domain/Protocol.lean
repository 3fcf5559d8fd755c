import Iuna.Domain.Primitives

/-!
# Protocol parameters, launch profile and cryptographic oracles

The frozen consensus constants of `protocol.rs`, the `LaunchProfile` a chain is started with, and
the interface to the cryptographic packages the node links against.  Those packages are not part
of the repository, so they enter as the class `Crypto`: a digest of 32 bytes, the two signature
checks and the class-group VDF check, each a function of exactly the bytes the node passes in.
-/

namespace Iuna

/-- An amount in micro-iuna, a `u64`. -/
abbrev Amount := ℕ

def microIuna : Amount := 1000000

def mineReward : Amount := microIuna

def mineFinalizerFee : Amount := microIuna

def hybridRewardActivationHeight : ℕ := 3750

def hybridLineageIdentityActivationHeight : ℕ := 4750

def maxBlockBytes : ℕ := 1000000

def vdfTargetBlockMs : ℕ := 10 * 60 * 1000

def recoveryBlockDelayMs : ℕ := vdfTargetBlockMs * 6

/-- `MAX_VDF_ROUNDS`, `i64::MAX as u64`. -/
def maxVdfRounds : ℕ := 2 ^ 63 - 1

def mineDifficultyBits : ℕ := 12

def mineActionsPerAnchorLimit : ℕ := 2

def burnCommitteeSize : ℕ := 5

def maxBurnBundleBytes : ℕ := 10000

def burnLineageMaturityHeights : ℕ := 20

def grindingResistanceActivationHeight : ℕ := 1000

def transactionSigningV1ActivationHeight : ℕ := 1000

def transactionReplayProtectionActivationHeight : ℕ := 1000

def objectiveFinalityActivationHeight : ℕ := 1000

def tipBoundBurnActivationHeight : ℕ := 1000

def maxPendingTransactions : ℕ := 10000

def maxPendingPoolBytes : ℕ := 8 * 1024 * 1024

def maxOrphanTransactions : ℕ := 1024

def maxBlockTransactions : ℕ := 1000

def defaultTicketMaturityDelay : ℕ := 3

def defaultTicketExpiryWindow : ℕ := 3

def maxBlockTimestampFutureDriftMs : ℕ := 2 * 60 * 1000

def blockMedianTimePastWindow : ℕ := 11

def forkFinalityDepth : ℕ := 6

def publicKeyBytes : ℕ := 32

def hashBytes : ℕ := 32

def signatureBytes : ℕ := 64

def stratumMineHeaderBytes : ℕ := 80

/-! ## Cryptographic packages -/

/-- The external primitives: SHA-256, the Ed25519 and ML-DSA-44 verifiers and the proof check of
the class-group VDF. -/
class Crypto where
  /-- `Sha256::digest`. -/
  sha256 : Bytes → FixedBytes 32
  /-- `VerifyingKey::from_bytes` succeeds. -/
  ed25519KeyValid : FixedBytes 32 → Bool
  /-- `VerifyingKey::is_weak`. -/
  ed25519KeyWeak : FixedBytes 32 → Bool
  /-- `VerifyingKey::verify` of a payload and a signature. -/
  ed25519Verify : FixedBytes 32 → Bytes → FixedBytes 64 → Bool
  /-- The encoding check of an ML-DSA-44 signature. -/
  mlDsa44SignatureValid : FixedBytes 2420 → Bool
  /-- `verify_with_context` with the empty context. -/
  mlDsa44Verify : FixedBytes 1312 → Bytes → FixedBytes 2420 → Bool
  /-- `wesolowski::verify` of a seed, a number of rounds and a solution. -/
  wesolowskiVerify : Bytes → ℕ → Bytes → Bool

variable [Crypto]

/-- `hex_hash` of a byte string. -/
def hexHashBytes (input : Bytes) : Str := hexEncode (Crypto.sha256 input).val

/-- `hex_hash` of a text. -/
def hexHash (input : Str) : Str := hexHashBytes (utf8 input)

@[simp] lemma hexHashBytes_length (input : Bytes) : (hexHashBytes input).length = 64 := by
  rw [hexHashBytes, hexEncode_length, (Crypto.sha256 input).property]

@[simp] lemma hexHash_length (input : Str) : (hexHash input).length = 64 :=
  hexHashBytes_length _

/-- `validate_ed25519_public_key`. -/
def validateEd25519PublicKey (publicKey : FixedBytes 32) : Result Unit := do
  bailIf (Crypto.ed25519KeyValid publicKey = false)
    "address payload is not a valid Ed25519 verifying key"
  bailIf (Crypto.ed25519KeyWeak publicKey = true)
    "address payload contains a weak Ed25519 verifying key"

/-- `verify_ed25519`. -/
def verifyEd25519 (publicKey : FixedBytes 32) (payload : Bytes) (signature : FixedBytes 64)
    (label : String) : Result Unit := do
  bailIf (Crypto.ed25519KeyValid publicKey = false) s!"invalid {label} public key"
  bailIf (Crypto.ed25519Verify publicKey payload signature = false)
    s!"{label} signature is invalid"

/-- `verify_ml_dsa44`. -/
def verifyMlDsa44 (publicKey : FixedBytes 1312) (payload : Bytes) (signature : FixedBytes 2420)
    (label : String) : Result Unit := do
  bailIf (Crypto.mlDsa44SignatureValid signature = false)
    s!"invalid {label} ML-DSA-44 signature encoding"
  bailIf (Crypto.mlDsa44Verify publicKey payload signature = false)
    s!"{label} ML-DSA-44 signature is invalid"

/-- An accepted Ed25519 signature verifies over the payload. -/
lemma verifyEd25519_eq_ok {publicKey : FixedBytes 32} {payload : Bytes} {signature : FixedBytes 64}
    {label : String} {u : Unit} (h : verifyEd25519 publicKey payload signature label = .ok u) :
    Crypto.ed25519Verify publicKey payload signature = true := by
  simp only [verifyEd25519, Outcome.bind_eq_ok, Outcome.bailIf_eq_ok] at h
  obtain ⟨_, _, hverify⟩ := h
  simpa using hverify

lemma verifyMlDsa44_eq_ok {publicKey : FixedBytes 1312} {payload : Bytes}
    {signature : FixedBytes 2420} {label : String} {u : Unit}
    (h : verifyMlDsa44 publicKey payload signature label = .ok u) :
    Crypto.mlDsa44Verify publicKey payload signature = true := by
  simp only [verifyMlDsa44, Outcome.bind_eq_ok, Outcome.bailIf_eq_ok] at h
  obtain ⟨_, _, hverify⟩ := h
  simpa using hverify

/-! ## Launch profile -/

/-- `LaunchProfile`. -/
structure LaunchProfile where
  profileId : Str
  ticketMaturityDelayHeights : ℕ
  ticketExpiryWindowHeights : ℕ
  mineDifficultyBits : ℕ
  burnLineageMaturityHeights : ℕ
  maxPendingTransactions : ℕ
  maxBlockTransactions : ℕ
  maxBlockBytes : ℕ
  deriving DecidableEq

/-- `LaunchProfile::default`. -/
def LaunchProfile.default : LaunchProfile where
  profileId := str "iuna-mainnet-candidate"
  ticketMaturityDelayHeights := defaultTicketMaturityDelay
  ticketExpiryWindowHeights := defaultTicketExpiryWindow
  mineDifficultyBits := Iuna.mineDifficultyBits
  burnLineageMaturityHeights := Iuna.burnLineageMaturityHeights
  maxPendingTransactions := Iuna.maxPendingTransactions
  maxBlockTransactions := Iuna.maxBlockTransactions
  maxBlockBytes := Iuna.maxBlockBytes

/-- `LaunchProfile::hash`: the maturity of the burn lineage enters the text only where it differs
from the protocol default. -/
def LaunchProfile.hash (profile : LaunchProfile) : Str :=
  if profile.burnLineageMaturityHeights = Iuna.burnLineageMaturityHeights then
    hexHash (colons [str "iuna-launch-profile", profile.profileId,
      decimal profile.ticketMaturityDelayHeights, decimal profile.ticketExpiryWindowHeights,
      decimal profile.mineDifficultyBits, decimal profile.maxPendingTransactions,
      decimal profile.maxBlockTransactions, decimal profile.maxBlockBytes])
  else
    hexHash (colons [str "iuna-launch-profile-v2", profile.profileId,
      decimal profile.ticketMaturityDelayHeights, decimal profile.ticketExpiryWindowHeights,
      decimal profile.mineDifficultyBits, decimal profile.burnLineageMaturityHeights,
      decimal profile.maxPendingTransactions, decimal profile.maxBlockTransactions,
      decimal profile.maxBlockBytes])

end Iuna
