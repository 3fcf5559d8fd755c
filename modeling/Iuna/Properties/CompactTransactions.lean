import Iuna.Properties.CompactFields

/-!
# Transactions of the compact codec

A transaction is a sequence of parts behind a tag.  The writer works from the transaction, not from
the parts: it needs an input to name the owner, and it takes the shortest form of the change of a
burn.  Where the parts were spelled otherwise it writes strictly less.
-/

namespace Iuna

open Respelling

/-! ## Transactions -/

lemma lift_ok {α : Type} (a : α) :
    (liftM (.ok a : Result α) : StateT EncodeTables Result α) = pure a := rfl

lemma commonInputOwner_signedInputs {outpoints : List OutPoint} (owner signature : Str)
    (h : outpoints ≠ []) :
    commonInputOwner (signedInputs outpoints owner signature) = .ok owner := by
  unfold commonInputOwner signedInputs
  cases outpoints with
  | nil => exact absurd rfl h
  | cons outpoint outpoints =>
    have hsame : ((outpoint :: outpoints).map fun outpoint : OutPoint =>
        ({ outpoint := outpoint, owner := owner, signature := signature } : TxInput)).any
          (fun input => input.owner ≠ owner) = false := by
      simp
    simp only [List.map_cons, List.head?_cons, Outcome.ofOption, bind, Except.bind] at hsame ⊢
    rw [hsame]
    rfl

lemma ensureInputSignatures_signedInputs (outpoints : List OutPoint) (owner signature : Str) :
    ensureInputSignatures (signedInputs outpoints owner signature) signature = .ok ⟨⟩ := by
  unfold ensureInputSignatures
  refine Outcome.bailIf_eq_ok.mpr ?_
  simp [signedInputs]

lemma someOutpoints_eq_ok {outpoints : List OutPoint} :
    Strict.someOutpoints outpoints = .ok () ↔ outpoints ≠ [] :=
  Outcome.bailIf_eq_ok

/-- What follows the tag of a written transaction. -/
def writeTail (transaction : Transaction) : CompactWriter := do
  let bytes ← encodeCompactTransaction transaction
  pure bytes.tail

section Transfer

variable [Crypto]

/-- The parts of a transfer in the order of their bytes. -/
def transferParts : CompactReader (List OutPoint × Str × List TxOutput × ℕ × Str) :=
  pair decodeOutpoints fun _ => pair CompactReader.address fun _ =>
    pair decodeCompactOutputs fun _ => pair CompactReader.varint fun _ => CompactReader.fixedHex 64

def strictTransferParts : CompactReader (List OutPoint × Str × List TxOutput × ℕ × Str) :=
  pair Strict.decodeOutpoints fun _ => pair Strict.address fun _ =>
    pair Strict.decodeCompactOutputs fun _ => pair Strict.varint fun _ => CompactReader.fixedHex 64

omit [Crypto] in
def writeTransferParts : List OutPoint × Str × List TxOutput × ℕ × Str → CompactWriter :=
  pairWriter (writeVec writeOutpoint) fun _ => pairWriter CompactWriter.address fun _ =>
    pairWriter encodeCompactOutputs fun _ =>
      pairWriter (fun fee => (pure (CompactWriter.varint fee) : CompactWriter)) fun _ signature =>
        (liftM (CompactWriter.fixedHex 64 signature "transfer signature") : CompactWriter)

lemma respells_transferParts (s : EncodeTables) :
    Respells s transferParts strictTransferParts writeTransferParts :=
  (respells_decodeOutpoints s).pair fun _ _ s _ _ => (respells_address s).pair fun _ _ s _ _ =>
    (respells_decodeCompactOutputs s).pair fun _ _ s _ _ => (respells_varint s).pair fun _ _ s _ _ =>
      respells_fixedHex s 64 "transfer signature"

def readTransfer : CompactReader Transaction := do
  let outpoints ← decodeOutpoints
  let owner ← CompactReader.address
  let outputs ← decodeCompactOutputs
  let fee ← CompactReader.varint
  let signature ← CompactReader.fixedHex 64
  pure (.transfer (signedInputs outpoints owner signature) outputs fee signature)

def strictTransfer : CompactReader Transaction := do
  let outpoints ← Strict.decodeOutpoints
  let owner ← Strict.address
  let outputs ← Strict.decodeCompactOutputs
  let fee ← Strict.varint
  let signature ← CompactReader.fixedHex 64
  CompactReader.check (Strict.someOutpoints outpoints)
  pure (.transfer (signedInputs outpoints owner signature) outputs fee signature)

omit [Crypto] in
lemma encode_transfer {outpoints : List OutPoint} (owner : Str) (outputs : List TxOutput) (fee : ℕ)
    (signature : Str) (h : outpoints ≠ []) :
    encodeCompactTransaction
        (.transfer (signedInputs outpoints owner signature) outputs fee signature) = (do
      let bytes ← writeTransferParts (outpoints, owner, outputs, fee, signature)
      pure (0 :: bytes)) := by
  simp only [encodeCompactTransaction, commonInputOwner_signedInputs owner signature h, lift_ok,
    pure_bind, encodeOutpoints_signedInputs, ensureInputSignatures_signedInputs, writeTransferParts,
    pairWriter, bind_assoc, List.append_assoc, List.cons_append]

lemma respells_transfer (s : EncodeTables) :
    Respells s readTransfer strictTransfer writeTail := by
  refine (respells_transferParts s).build
    (g := fun a => .transfer (signedInputs a.1 a.2.1 a.2.2.2.2) a.2.2.1 a.2.2.2.1 a.2.2.2.2)
    (c := fun a => Strict.someOutpoints a.1) ?_ ?_ ?_ ?_
  · simp only [readTransfer, transferParts, pair, bind_assoc, pure_bind]
  · simp only [strictTransfer, strictTransferParts, pair, bind_assoc, pure_bind]
    rfl
  · intro bytes a s' rest _ hsome
    have hwrite := encode_transfer a.2.1 a.2.2.1 a.2.2.2.1 a.2.2.2.2
      (someOutpoints_eq_ok.mp hsome)
    rw [writeTail, hwrite]
    simp only [bind_assoc, pure_bind, List.tail_cons, bind_pure]
  · intro bytes a s' rest _ hnone out t hout
    obtain ⟨outpoints, owner, outputs, fee, signature⟩ := a
    obtain rfl : outpoints = [] := by
      by_contra h
      exact hnone (someOutpoints_eq_ok.mpr h)
    cases hout

end Transfer

section Mine

variable [Crypto]

def readMine : CompactReader Transaction := do
  let recipient ← CompactReader.address
  let anchor ← CompactReader.protocolIdRef
  let salt ← CompactReader.varint
  let nonce ← CompactReader.varint
  let difficultyBits ← CompactReader.u32
  let proofHeader ← CompactReader.optional (CompactReader.fixedHex 80)
  let signature ← CompactReader.fixedHex 32
  pure (.mine recipient anchor salt nonce difficultyBits proofHeader signature)

def strictMine : CompactReader Transaction := do
  let recipient ← Strict.address
  let anchor ← Strict.protocolIdRef
  let salt ← Strict.varint
  let nonce ← Strict.varint
  let difficultyBits ← Strict.u32
  let proofHeader ← CompactReader.optional (CompactReader.fixedHex 80)
  let signature ← CompactReader.fixedHex 32
  pure (.mine recipient anchor salt nonce difficultyBits proofHeader signature)

omit [Crypto] in
lemma encode_mine (recipient anchor : Str) (salt nonce difficultyBits : ℕ) (proofHeader : Option Str)
    (signature : Str) :
    encodeCompactTransaction
        (.mine recipient anchor salt nonce difficultyBits proofHeader signature) = (do
      let bytes ← pairWriter CompactWriter.address (fun _ => pairWriter CompactWriter.protocolIdRef
        fun _ => pairWriter (fun n => (pure (CompactWriter.varint n) : CompactWriter)) fun _ =>
          pairWriter (fun n => (pure (CompactWriter.varint n) : CompactWriter)) fun _ =>
            pairWriter (fun n => (pure (CompactWriter.varint n) : CompactWriter)) fun _ =>
              pairWriter (CompactWriter.optional fun header =>
                (liftM (CompactWriter.fixedHex 80 header "mine proof header") : CompactWriter))
                fun _ signature =>
                  (liftM (CompactWriter.fixedHex 32 signature "mine signature") : CompactWriter))
        (recipient, anchor, salt, nonce, difficultyBits, proofHeader, signature)
      pure (2 :: bytes)) := by
  simp only [encodeCompactTransaction, pairWriter, bind_assoc, pure_bind, List.append_assoc,
    List.cons_append]

lemma respells_mine (s : EncodeTables) : Respells s readMine strictMine writeTail := by
  refine Respells.map (g := fun a => .mine a.1 a.2.1 a.2.2.1 a.2.2.2.1 a.2.2.2.2.1 a.2.2.2.2.2.1
      a.2.2.2.2.2.2)
    ((respells_address s).pair fun _ _ s _ _ => (respells_protocolIdRef s).pair fun _ _ s _ _ =>
      (respells_varint s).pair fun _ _ s _ _ => (respells_varint s).pair fun _ _ s _ _ =>
        (respells_u32 s).pair fun _ _ s _ _ =>
          (respells_optional (fun s => respells_fixedHex s 80 "mine proof header") s).pair
            fun _ _ s _ _ => respells_fixedHex s 32 "mine signature") ?_ ?_ ?_
  · simp only [readMine, pair, bind_assoc, pure_bind]
  · simp only [strictMine, pair, bind_assoc, pure_bind]
  · intro bytes a s' rest _
    obtain ⟨recipient, anchor, salt, nonce, difficultyBits, proofHeader, signature⟩ := a
    rw [writeTail, encode_mine]
    simp only [bind_assoc, pure_bind, List.tail_cons, bind_pure]

end Mine

/-! ## Writers of different length -/

/-- `w` writes no less than `w'` and leaves the same state. -/
def AtLeast (s : EncodeTables) (w w' : CompactWriter) : Prop :=
  ∀ out t, w' s = .ok (out, t) → ∃ out', w s = .ok (out', t) ∧ out.length ≤ out'.length

/-- `w` writes more than `w'` and leaves the same state. -/
def Longer (s : EncodeTables) (w w' : CompactWriter) : Prop :=
  ∀ out t, w' s = .ok (out, t) → ∃ out', w s = .ok (out', t) ∧ out.length < out'.length

lemma AtLeast.refl (s : EncodeTables) (w : CompactWriter) : AtLeast s w w :=
  fun out _ h => ⟨out, h, le_rfl⟩

section Pairs

variable {α β : Type} {w w' : α → CompactWriter} {v v' : α → β → CompactWriter} {a a' : α}
  {b b' : β} {s : EncodeTables}

lemma Longer.right (first : AtLeast s (w a) (w' a'))
    (second : ∀ out t, w' a' s = .ok (out, t) → Longer t (v a b) (v' a' b')) :
    Longer s (pairWriter w v (a, b)) (pairWriter w' v' (a', b')) := by
  intro out t h
  obtain ⟨o₁, t₁, o₂, t₂, h₁, h₂, hx⟩ := pairWriter_eq_ok.mp h
  obtain ⟨rfl, rfl⟩ : out = o₁ ++ o₂ ∧ t = t₂ := by simpa only [Prod.mk.injEq] using hx
  obtain ⟨o₁', h₁', le₁⟩ := first _ _ h₁
  obtain ⟨o₂', h₂', lt₂⟩ := second _ _ h₁ _ _ h₂
  refine ⟨_, pairWriter_eq_ok.mpr ⟨_, _, _, _, h₁', h₂', rfl⟩, ?_⟩
  simp only [List.length_append]
  omega

lemma Longer.left (first : Longer s (w a) (w' a'))
    (second : ∀ t, AtLeast t (v a b) (v' a' b')) :
    Longer s (pairWriter w v (a, b)) (pairWriter w' v' (a', b')) := by
  intro out t h
  obtain ⟨o₁, t₁, o₂, t₂, h₁, h₂, hx⟩ := pairWriter_eq_ok.mp h
  obtain ⟨rfl, rfl⟩ : out = o₁ ++ o₂ ∧ t = t₂ := by simpa only [Prod.mk.injEq] using hx
  obtain ⟨o₁', h₁', lt₁⟩ := first _ _ h₁
  obtain ⟨o₂', h₂', le₂⟩ := second _ _ _ h₂
  refine ⟨_, pairWriter_eq_ok.mpr ⟨_, _, _, _, h₁', h₂', rfl⟩, ?_⟩
  simp only [List.length_append]
  omega

end Pairs

/-! ## Burns -/

/-- The mode byte of a burn. -/
def readMode : CompactReader ℕ := do
  let mode ← CompactReader.u8
  CompactReader.check (bailIf (16 ≤ mode ∨ mode % 4 = 3) s!"invalid compact burn mode {mode}")
  pure mode

def writeByte (byte : ℕ) : CompactWriter := pure [UInt8.ofNat byte]

lemma respells_readMode (s : EncodeTables) : Respells s readMode readMode writeByte :=
  (respells_u8 s).checked rfl rfl

lemma readMode_bound {s s' : EncodeTables} {bytes rest : Bytes} {mode : ℕ}
    (h : Accepts readMode s bytes mode s' rest) : mode < 16 ∧ mode % 4 ≠ 3 := by
  obtain ⟨byte, rest', -, h⟩ := u8_bind_eq_ok.mp h
  obtain ⟨_, hbound, hpure⟩ := check_bind_eq_ok.mp h
  obtain ⟨⟨rfl, -⟩, -⟩ := accepts_pure.mp hpure
  have hnot := Outcome.bailIf_eq_ok.mp hbound
  omega

section Change

variable [Crypto]

/-- The change of a burn in one of its three forms. -/
def readChange (mode : ℕ) (owner : Str) : CompactReader (List TxOutput) :=
  if mode % 4 = 0 then pure []
  else if mode % 4 = 1 then do
    let amount ← CompactReader.varint
    pure [{ address := owner, amount := amount }]
  else decodeCompactOutputs

def strictChange (mode : ℕ) (owner : Str) : CompactReader (List TxOutput) :=
  if mode % 4 = 0 then pure []
  else if mode % 4 = 1 then do
    let amount ← Strict.varint
    pure [{ address := owner, amount := amount }]
  else Strict.decodeCompactOutputs

omit [Crypto] in
/-- The change in the form of a mode. -/
def writeChange (mode : ℕ) (change : List TxOutput) : CompactWriter :=
  match mode with
  | 0 => pure []
  | 1 => pure (CompactWriter.varint ((change.head?.map TxOutput.amount).getD 0))
  | _ => encodeCompactOutputs change

lemma respells_readChange (mode : ℕ) (owner : Str) (s : EncodeTables) :
    Respells s (readChange mode owner) (strictChange mode owner) (writeChange (mode % 4)) := by
  refine Respells.ite (fun h0 => ?_) fun h0 => Respells.ite (fun h1 => ?_) fun h1 => ?_
  · rw [h0]
    exact Respells.pure s [] rfl
  · rw [h1]
    exact (respells_varint s).map rfl rfl fun _ _ _ _ _ => rfl
  · have hmode : writeChange (mode % 4) = encodeCompactOutputs := by
      funext change
      unfold writeChange
      split
      · rename_i h
        exact absurd h h0
      · rename_i h
        exact absurd h h1
      · rfl
    rw [hmode]
    exact respells_decodeCompactOutputs s

/-- A form other than the list is always the shortest. -/
lemma readChange_mode {mode : ℕ} {owner : Str} {s s' : EncodeTables} {bytes rest : Bytes}
    {change : List TxOutput} (h : Accepts (readChange mode owner) s bytes change s' rest)
    (hlist : mode % 4 < 2) : changeMode change owner = mode % 4 := by
  unfold readChange at h
  by_cases h0 : mode % 4 = 0
  · rw [if_pos h0] at h
    obtain ⟨⟨rfl, -⟩, -⟩ := accepts_pure.mp h
    exact h0.symm
  · have h1 : mode % 4 = 1 := by omega
    rw [if_neg h0, if_pos h1] at h
    obtain ⟨amount, s₁, rest₁, -, hpure⟩ := read_bind_eq_ok.mp h
    obtain ⟨⟨rfl, -⟩, -⟩ := accepts_pure.mp hpure
    rw [h1]
    simp [changeMode]

omit [Crypto] in
lemma changeMode_le (change : List TxOutput) (owner : Str) : changeMode change owner ≤ 2 := by
  unfold changeMode
  split
  · omega
  · split <;> omega
  · omega

omit [Crypto] in
lemma writeAddress_known {value : Str} {s t : EncodeTables} {out : Bytes}
    (h : CompactWriter.address value s = .ok (out, t)) : value ∈ t.addresses := by
  unfold CompactWriter.address at h
  cases hposition : s.addresses.idxOf? value with
  | some index =>
    rw [hposition] at h
    cases h
    exact List.isSome_idxOf?.mp (by rw [hposition]; rfl)
  | none =>
    rw [hposition] at h
    have hregistered : t = s.registerAddress value := by
      cases hhex : decodeHex value with
      | error e =>
        rw [hhex] at h
        cases h
        rfl
      | ok content =>
        rw [hhex] at h
        cases hfixed : CompactWriter.fixedHex 32 value "address" with
        | error e =>
          simp only [hfixed] at h
          cases h
        | ok bytes =>
          simp only [hfixed] at h
          cases h
          rfl
    rw [hregistered]
    simp only [EncodeTables.registerAddress, register]
    split
    · assumption
    · simp

omit [Crypto] in
/-- The list form of a change that has a shorter form writes more. -/
lemma longer_change {change : List TxOutput} {owner : Str} {s : EncodeTables}
    (hknown : owner ∈ s.addresses) (hshort : changeMode change owner < 2) :
    Longer s (encodeCompactOutputs change) (writeChange (changeMode change owner) change) := by
  obtain ⟨first, hfirst⟩ := Option.isSome_iff_exists.mp (List.isSome_idxOf?.mpr hknown)
  intro out t h
  match change, hshort, h with
  | [], _, h =>
    cases h
    exact ⟨[0], rfl, by simp⟩
  | [output], hshort, h =>
    have howner : output.address = owner := by
      by_contra hne
      simp [changeMode, hne] at hshort
    subst howner
    simp only [changeMode, if_true] at h
    obtain ⟨rfl, rfl⟩ : out = CompactWriter.varint output.amount ∧ t = s := by
      simpa only [Prod.mk.injEq, List.head?_cons, Option.map_some, Option.getD_some] using
        write_pure_eq_ok.mp h
    refine ⟨CompactWriter.varint 1 ++ ((0 :: CompactWriter.varint first ++
      CompactWriter.varint output.amount) ++ []), ?_, ?_⟩
    · refine write_bind_eq_ok.mpr ⟨_, t, write_bind_eq_ok.mpr ⟨_, t, write_bind_eq_ok.mpr
        ⟨_, t, write_known_address hfirst, rfl⟩, rfl⟩, rfl⟩
    · simp only [List.length_append, List.length_cons, List.length_nil]
      omega
  | _ :: _ :: _, hshort, _ => exact absurd hshort (by simp [changeMode])

end Change

abbrev BurnParts := ℕ × List OutPoint × Str × List TxOutput × ℕ × ℕ × Option Str × Str

/-- The signature of a burn, which is short in a genesis burn. -/
def writeBurnSignature (genesis : Bool) (signature : Str) : CompactWriter :=
  if genesis then (liftM (CompactWriter.fixedHex 32 signature "genesis burn signature") :
    CompactWriter)
  else (liftM (CompactWriter.fixedHex 64 signature "burn signature") : CompactWriter)

/-- The parts of a burn whose change has the given form. -/
def writeBurnParts (form : ℕ) (genesis : Bool) : BurnParts → CompactWriter :=
  pairWriter writeByte fun _ => pairWriter (writeVec writeOutpoint) fun _ =>
    pairWriter CompactWriter.address fun _ => pairWriter (writeChange form) fun _ =>
      pairWriter (fun n => (pure (CompactWriter.varint n) : CompactWriter)) fun _ =>
        pairWriter (fun n => (pure (CompactWriter.varint n) : CompactWriter)) fun _ =>
          pairWriter (writePresent CompactWriter.protocolIdRef) fun _ => writeBurnSignature genesis

lemma encode_burn {outpoints : List OutPoint} (owner : Str) (change : List TxOutput)
    (amount fee : ℕ) (anchor : Option Str) (genesis : Bool) (signature : Str)
    (hsome : outpoints ≠ []) (hsignature : signature ≠ str "genesis") :
    encodeCompactTransaction (.burn (signedInputs outpoints owner
        (if genesis then str "genesis" else signature)) change amount fee anchor signature) = (do
      let bytes ← writeBurnParts (changeMode change owner) genesis
        (changeMode change owner + (if genesis then 4 else 0) + (if anchor.isSome then 8 else 0),
          outpoints, owner, change, amount, fee, anchor, signature)
      pure (1 :: bytes)) := by
  have hgenesis : ((signedInputs outpoints owner
      (if genesis then str "genesis" else signature)).all
        fun input => input.signature = str "genesis") = genesis := by
    cases genesis with
    | true => simp [signedInputs]
    | false =>
      obtain ⟨outpoint, outpoints, rfl⟩ := List.exists_cons_of_ne_nil hsome
      simp [signedInputs, hsignature]
  simp only [encodeCompactTransaction, commonInputOwner_signedInputs owner _ hsome, lift_ok,
    pure_bind, hgenesis, encodeOutpoints_signedInputs]
  generalize changeMode change owner = form
  rcases form with _ | _ | form <;> cases genesis <;> cases anchor <;>
    simp [ensureInputSignatures_signedInputs, lift_ok, writeBurnParts, writeBurnSignature, writeByte,
      writeChange, writePresent, pairWriter]

section Burn

variable [Crypto]

def readBurn : CompactReader Transaction := do
  let mode ← CompactReader.u8
  CompactReader.check (bailIf (16 ≤ mode ∨ mode % 4 = 3) s!"invalid compact burn mode {mode}")
  let genesis := mode / 4 % 2 = 1
  let anchored := mode / 8 % 2 = 1
  let outpoints ← decodeOutpoints
  let owner ← CompactReader.address
  let change ←
    if mode % 4 = 0 then pure []
    else if mode % 4 = 1 then do
      let amount ← CompactReader.varint
      pure [{ address := owner, amount := amount }]
    else decodeCompactOutputs
  let amount ← CompactReader.varint
  let fee ← CompactReader.varint
  let anchor ←
    if anchored then do
      let anchor ← CompactReader.protocolIdRef
      pure (some anchor)
    else pure none
  let signature ← CompactReader.fixedHex (if genesis then 32 else 64)
  let inputSignature := if genesis then str "genesis" else signature
  pure (.burn (signedInputs outpoints owner inputSignature) change amount fee anchor signature)

def strictBurn : CompactReader Transaction := do
  let mode ← CompactReader.u8
  CompactReader.check (bailIf (16 ≤ mode ∨ mode % 4 = 3) s!"invalid compact burn mode {mode}")
  let genesis := mode / 4 % 2 = 1
  let anchored := mode / 8 % 2 = 1
  let outpoints ← Strict.decodeOutpoints
  let owner ← Strict.address
  let change ←
    if mode % 4 = 0 then pure []
    else if mode % 4 = 1 then do
      let amount ← Strict.varint
      pure [{ address := owner, amount := amount }]
    else Strict.decodeCompactOutputs
  let amount ← Strict.varint
  let fee ← Strict.varint
  let anchor ←
    if anchored then do
      let anchor ← Strict.protocolIdRef
      pure (some anchor)
    else pure none
  let signature ← CompactReader.fixedHex (if genesis then 32 else 64)
  let inputSignature := if genesis then str "genesis" else signature
  CompactReader.check (do
    Strict.someOutpoints outpoints
    bailIf (changeMode change owner ≠ mode % 4) "compact burn change is not in its shortest form")
  pure (.burn (signedInputs outpoints owner inputSignature) change amount fee anchor signature)

omit [Crypto] in
lemma ite_bind_eq {α β : Type} (c : Prop) [Decidable c] (r q : CompactReader α)
    (f : α → CompactReader β) :
    ((if c then r else q) >>= f) = if c then r >>= f else q >>= f := by
  split <;> rfl

/-- The parts of a burn in the order of their bytes. -/
def burnParts : CompactReader BurnParts :=
  pair readMode fun mode => pair decodeOutpoints fun _ => pair CompactReader.address fun owner =>
    pair (readChange mode owner) fun _ => pair CompactReader.varint fun _ =>
      pair CompactReader.varint fun _ =>
        pair (present CompactReader.protocolIdRef (mode / 8 % 2 = 1)) fun _ =>
          CompactReader.fixedHex (if mode / 4 % 2 = 1 then 32 else 64)

def strictBurnParts : CompactReader BurnParts :=
  pair readMode fun mode => pair Strict.decodeOutpoints fun _ => pair Strict.address fun owner =>
    pair (strictChange mode owner) fun _ => pair Strict.varint fun _ =>
      pair Strict.varint fun _ =>
        pair (present Strict.protocolIdRef (mode / 8 % 2 = 1)) fun _ =>
          CompactReader.fixedHex (if mode / 4 % 2 = 1 then 32 else 64)

omit [Crypto] in
lemma respells_burnSignature (genesis : Prop) [Decidable genesis] (s : EncodeTables) :
    Respells s (CompactReader.fixedHex (if genesis then 32 else 64))
      (CompactReader.fixedHex (if genesis then 32 else 64)) (writeBurnSignature (decide genesis)) := by
  by_cases h : genesis
  · simp only [h, if_true, decide_true]
    exact respells_fixedHex s 32 "genesis burn signature"
  · simp only [h, if_false, decide_false]
    exact respells_fixedHex s 64 "burn signature"

/-- The writer of the parts as they were read. -/
def writeBurnAsRead (parts : BurnParts) : CompactWriter :=
  writeBurnParts (parts.1 % 4) (decide (parts.1 / 4 % 2 = 1)) parts

lemma respells_burnParts (s : EncodeTables) :
    Respells s burnParts strictBurnParts writeBurnAsRead := by
  refine Respells.map (g := id) (Respells.pair (respells_readMode s) fun _ mode s _ _ =>
    (respells_decodeOutpoints s).pair fun _ _ s _ _ => (respells_address s).pair fun _ owner s _ _ =>
      (respells_readChange mode owner s).pair fun _ _ s _ _ => (respells_varint s).pair
        fun _ _ s _ _ => (respells_varint s).pair fun _ _ s _ _ =>
          (respells_present (mode / 8 % 2 = 1) respells_protocolIdRef s).pair fun _ _ s _ _ =>
            respells_burnSignature (mode / 4 % 2 = 1) s) ?_ ?_ ?_
  · simp only [burnParts, id, bind_pure]
  · simp only [strictBurnParts, id, bind_pure]
  · intro bytes a s' rest _
    simp only [writeBurnAsRead, writeBurnParts, pairWriter, id]

/-- What the mode says about the parts that follow it. -/
lemma burnParts_mode {s s' : EncodeTables} {bytes rest : Bytes} {mode : ℕ}
    {outpoints : List OutPoint} {owner : Str} {change : List TxOutput} {amount fee : ℕ}
    {anchor : Option Str} {signature : Str}
    (h : Accepts burnParts s bytes (mode, outpoints, owner, change, amount, fee, anchor, signature)
      s' rest) :
    mode < 16 ∧ mode % 4 ≠ 3 ∧ (mode % 4 < 2 → changeMode change owner = mode % 4) ∧
      anchor.isSome = decide (mode / 8 % 2 = 1) ∧ signature ≠ str "genesis" := by
  obtain ⟨s₁, rest₁, hmode, h⟩ := accepts_pair_mk h
  obtain ⟨s₂, rest₂, -, h⟩ := accepts_pair_mk h
  obtain ⟨s₃, rest₃, -, h⟩ := accepts_pair_mk h
  obtain ⟨s₄, rest₄, hchange, h⟩ := accepts_pair_mk h
  obtain ⟨s₅, rest₅, -, h⟩ := accepts_pair_mk h
  obtain ⟨s₆, rest₆, -, h⟩ := accepts_pair_mk h
  obtain ⟨s₇, rest₇, hanchor, hsignature⟩ := accepts_pair_mk h
  obtain ⟨hbound, hform⟩ := readMode_bound hmode
  refine ⟨hbound, hform, readChange_mode hchange, present_isSome hanchor, ?_⟩
  obtain ⟨-, content, hlength, rfl⟩ := fixedHex_eq_ok hsignature
  intro hgenesis
  have hshort := congrArg List.length hgenesis
  rw [hexEncode_length, hlength] at hshort
  split at hshort <;> cases hshort

/-- The check of the strict reader. -/
def shortestForm (parts : BurnParts) : Result Unit := do
  Strict.someOutpoints parts.2.1
  bailIf (changeMode parts.2.2.2.1 parts.2.2.1 ≠ parts.1 % 4)
    "compact burn change is not in its shortest form"

omit [Crypto] in
lemma shortestForm_eq_ok {parts : BurnParts} :
    shortestForm parts = .ok () ↔
      parts.2.1 ≠ [] ∧ changeMode parts.2.2.2.1 parts.2.2.1 = parts.1 % 4 := by
  unfold shortestForm
  simp only [Outcome.bind_eq_ok, Outcome.bailIf_eq_ok, not_not]
  constructor
  · rintro ⟨_, hsome, hform⟩
    exact ⟨someOutpoints_eq_ok.mp hsome, hform⟩
  · rintro ⟨hsome, hform⟩
    exact ⟨(), someOutpoints_eq_ok.mpr hsome, hform⟩

lemma respells_burn (s : EncodeTables) : Respells s readBurn strictBurn writeTail := by
  refine (respells_burnParts s).build (g := fun a => .burn (signedInputs a.2.1 a.2.2.1
      (if decide (a.1 / 4 % 2 = 1) then str "genesis" else a.2.2.2.2.2.2.2)) a.2.2.2.1 a.2.2.2.2.1
      a.2.2.2.2.2.1 a.2.2.2.2.2.2.1 a.2.2.2.2.2.2.2) (c := shortestForm) ?_ ?_ ?_ ?_
  · simp only [readBurn, burnParts, readMode, readChange, present, pair, bind_assoc, pure_bind,
      decide_eq_true_eq, ite_bind_eq]
  · simp only [strictBurn, strictBurnParts, readMode, strictChange, present, pair, bind_assoc,
      pure_bind, decide_eq_true_eq, ite_bind_eq]
    rfl
  · intro bytes a s' rest ha hshort
    obtain ⟨mode, outpoints, owner, change, amount, fee, anchor, signature⟩ := a
    obtain ⟨hbound, hform, -, hanchor, hsignature⟩ := burnParts_mode ha
    obtain ⟨hsome, hshort⟩ := shortestForm_eq_ok.mp hshort
    have hmode : changeMode change owner + (if decide (mode / 4 % 2 = 1) then 4 else 0) +
        (if anchor.isSome then 8 else 0) = mode := by
      simp only at hshort
      rw [hshort, hanchor]
      simp only [decide_eq_true_eq]
      split <;> split <;> omega
    rw [writeTail, encode_burn owner change amount fee anchor _ signature hsome hsignature, hmode,
      writeBurnAsRead, ← hshort]
    simp only [bind_assoc, pure_bind, List.tail_cons, bind_pure]
  · intro bytes a s' rest ha hlong out t hout
    obtain ⟨mode, outpoints, owner, change, amount, fee, anchor, signature⟩ := a
    obtain ⟨hbound, hform, hlist, hanchor, hsignature⟩ := burnParts_mode ha
    by_cases hsome : outpoints = []
    · subst hsome
      cases hout
    have hne : changeMode change owner ≠ mode % 4 := fun h =>
      hlong (shortestForm_eq_ok.mpr ⟨hsome, h⟩)
    have hmode : mode % 4 = 2 := by
      by_contra hnot
      exact hne (hlist (by omega))
    have hshort : changeMode change owner < 2 := by
      have hle := changeMode_le change owner
      omega
    rw [writeTail, encode_burn owner change amount fee anchor _ signature hsome hsignature] at hout
    simp only [bind_assoc, pure_bind, List.tail_cons, bind_pure] at hout
    have hlonger : Longer s (writeBurnAsRead
        (mode, outpoints, owner, change, amount, fee, anchor, signature))
        (writeBurnParts (changeMode change owner) (decide (mode / 4 % 2 = 1))
          (changeMode change owner + (if decide (mode / 4 % 2 = 1) then 4 else 0) +
            (if anchor.isSome then 8 else 0), outpoints, owner, change, amount, fee, anchor,
            signature)) := by
      unfold writeBurnAsRead writeBurnParts
      refine Longer.right ?_ fun _ s₁ _ => Longer.right (AtLeast.refl _ _) fun _ s₂ _ =>
        Longer.right (AtLeast.refl _ _) fun _ s₃ howner => Longer.left ?_ fun s₄ => AtLeast.refl _ _
      · intro out t h
        obtain ⟨rfl, rfl⟩ := writes_pure.mp h
        exact ⟨_, rfl, le_rfl⟩
      · rw [show writeChange (mode % 4) = encodeCompactOutputs by rw [hmode]; rfl]
        exact longer_change (writeAddress_known howner) hshort
    exact hlonger out t hout

end Burn

/-! ## All transactions -/

/-- The tag byte of a transaction. -/
def transactionTag : Transaction → UInt8
  | .transfer .. => 0
  | .burn .. => 1
  | .mine .. => 2

/-- Whatever is written starts with the byte. -/
def StartsWith (byte : UInt8) (write : CompactWriter) : Prop :=
  ∀ s out t, write s = .ok (out, t) → ∃ tail, out = byte :: tail

lemma StartsWith.bind {α : Type} {byte : UInt8} {x : StateT EncodeTables Result α}
    {f : α → CompactWriter} (h : ∀ a, StartsWith byte (f a)) : StartsWith byte (x >>= f) := by
  intro s out t hout
  obtain ⟨a, s', -, hf⟩ := write_bind_eq_ok.mp hout
  exact h a s' out t hf

lemma StartsWith.pure (byte : UInt8) (tail : Bytes) :
    StartsWith byte (Pure.pure (byte :: tail) : CompactWriter) := by
  intro s out t hout
  exact ⟨tail, (Prod.mk.inj (write_pure_eq_ok.mp hout)).1⟩

lemma StartsWith.ite {byte : UInt8} {c : Prop} [Decidable c] {x y : CompactWriter}
    (hx : StartsWith byte x) (hy : StartsWith byte y) : StartsWith byte (if c then x else y) := by
  split
  · exact hx
  · exact hy

/-- Every transaction is written behind its tag. -/
lemma encode_tag (transaction : Transaction) :
    StartsWith (transactionTag transaction) (encodeCompactTransaction transaction) := by
  cases transaction with
  | transfer inputs outputs fee signature =>
    exact .bind fun _ => .bind fun _ => .bind fun _ => .bind fun _ => .bind fun _ => .bind fun _ =>
      .pure _ _
  | burn inputs change amount fee anchor signature =>
    -- the forms of the change and the anchor make the writer branch
    refine .bind fun owner => ?_
    generalize changeMode change owner = mode
    rcases mode with _ | _ | mode <;> cases anchor <;>
      exact .ite (.bind fun _ => .bind fun _ => .bind fun _ => .bind fun _ => .bind fun _ =>
        .ite (.bind fun _ => .pure _ _) (.bind fun _ => .pure _ _))
        (.bind fun _ => .bind fun _ => .bind fun _ => .bind fun _ =>
          .ite (.bind fun _ => .pure _ _) (.bind fun _ => .pure _ _))
  | mine recipient anchor salt nonce difficultyBits proofHeader signature =>
    exact .bind fun _ => .bind fun _ => .bind fun _ => .bind fun _ => .pure _ _

lemma writeTail_eq_ok {transaction : Transaction} {s t : EncodeTables} {out : Bytes} :
    encodeCompactTransaction transaction s = .ok (out, t) ↔
      ∃ tail, writeTail transaction s = .ok (tail, t) ∧ out = transactionTag transaction :: tail := by
  unfold writeTail
  simp only [write_bind_eq_ok, write_pure_eq_ok, Prod.mk.injEq]
  constructor
  · intro h
    obtain ⟨tail, rfl⟩ := encode_tag transaction s out t h
    exact ⟨tail, ⟨_, t, h, rfl, rfl⟩, rfl⟩
  · rintro ⟨tail, ⟨out', t', h, htail, rfl⟩, rfl⟩
    obtain ⟨tail', rfl⟩ := encode_tag transaction s out' t h
    rw [htail]
    exact h

/-- Whatever is read has the property. -/
def Yields {α : Type} (property : α → Prop) (read : CompactReader α) : Prop :=
  ∀ s bytes a s' rest, Accepts read s bytes a s' rest → property a

lemma Yields.bind {α β : Type} {property : β → Prop} {r : CompactReader α}
    {f : α → CompactReader β} (h : ∀ a, Yields property (f a)) : Yields property (r >>= f) := by
  intro s bytes b s' rest hb
  obtain ⟨a, s₁, rest₁, -, hf⟩ := read_bind_eq_ok.mp hb
  exact h a _ _ _ _ _ hf

lemma Yields.pure {α : Type} {property : α → Prop} {a : α} (h : property a) :
    Yields property (Pure.pure a : CompactReader α) := by
  intro s bytes b s' rest hb
  obtain ⟨⟨rfl, -⟩, -⟩ := accepts_pure.mp hb
  exact h

section Reading

variable [Crypto]

lemma readTransfer_tag : Yields (fun a => transactionTag a = 0) readTransfer :=
  .bind fun _ => .bind fun _ => .bind fun _ => .bind fun _ => .bind fun _ => .pure rfl

lemma readBurn_tag : Yields (fun a => transactionTag a = 1) readBurn := by
  unfold readBurn
  repeat' first
    | exact .pure rfl
    | refine .bind fun _ => ?_
    | split

lemma readMine_tag : Yields (fun a => transactionTag a = 2) readMine :=
  .bind fun _ => .bind fun _ => .bind fun _ => .bind fun _ => .bind fun _ => .bind fun _ =>
    .bind fun _ => .pure rfl

lemma respells_decodeCompactTransaction (s : EncodeTables) :
    Respells s decodeCompactTransaction Strict.decodeCompactTransaction encodeCompactTransaction := by
  intro bytes transaction s' rest h
  obtain ⟨byte, bytes', rfl, hbody⟩ := u8_bind_eq_ok.mp h
  by_cases h0 : byte.toNat = 0
  · obtain rfl : byte = 0 := UInt8.toNat_inj.mp h0
    have hread : Accepts readTransfer s bytes' transaction s' rest := hbody
    obtain ⟨p, rfl, part⟩ := respells_transfer s _ _ _ _ hread
    refine ⟨0 :: p, rfl, part.tag 0 ?_ ?_⟩
    · intro bytes
      rw [Strict.decodeCompactTransaction, u8_bind_cons]
      rfl
    · intro out t
      have htag : transactionTag transaction = 0 := readTransfer_tag _ _ _ _ _ hread
      rw [writeTail_eq_ok, htag]
  rw [if_neg h0] at hbody
  by_cases h1 : byte.toNat = 1
  · obtain rfl : byte = 1 := UInt8.toNat_inj.mp h1
    have hread : Accepts readBurn s bytes' transaction s' rest := hbody
    obtain ⟨p, rfl, part⟩ := respells_burn s _ _ _ _ hread
    refine ⟨1 :: p, rfl, part.tag 1 ?_ ?_⟩
    · intro bytes
      rw [Strict.decodeCompactTransaction, u8_bind_cons]
      rfl
    · intro out t
      have htag : transactionTag transaction = 1 := readBurn_tag _ _ _ _ _ hread
      rw [writeTail_eq_ok, htag]
  rw [if_neg h1] at hbody
  by_cases h2 : byte.toNat = 2
  · obtain rfl : byte = 2 := UInt8.toNat_inj.mp h2
    have hread : Accepts readMine s bytes' transaction s' rest := hbody
    obtain ⟨p, rfl, part⟩ := respells_mine s _ _ _ _ hread
    refine ⟨2 :: p, rfl, part.tag 2 ?_ ?_⟩
    · intro bytes
      rw [Strict.decodeCompactTransaction, u8_bind_cons]
      rfl
    · intro out t
      have htag : transactionTag transaction = 2 := readMine_tag _ _ _ _ _ hread
      rw [writeTail_eq_ok, htag]
  · rw [if_neg h2] at hbody
    exact absurd hbody fail_ne_ok

lemma respells_decodeBlockTransaction (s : EncodeTables) :
    Respells s decodeBlockTransaction Strict.decodeBlockTransaction encodeBlockTransaction :=
  (respells_decodeCompactTransaction s).modifying fun transaction tables =>
    tables.registerProtocolId transaction.signature

end Reading

end Iuna
