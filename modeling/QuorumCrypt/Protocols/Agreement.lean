import QuorumCrypt.Protocols.NonInteractive

/-!
# Agreement of the protocols of one round

Every run does one round, finalizes at most once and holds only checked shares of distinct parties.
When the shares it holds are correct, what it assembles does not depend on which ones they are or on
their order, so all nodes that finish a request return the same bytes. That an accepted share is
correct follows from the pairing for Bz03 and Bls04. For Sg02, Cks05 and Sh00 it is an assumption on
the shares that are delivered.
-/

namespace QuorumCrypt

open Rust

namespace ShareRound

variable {S : Type} (P : ShareRound S)

/-- One round, one `finalize` with enough shares, and only checked shares of distinct parties. -/
structure Disciplined (rng : ℕ → Drawn) (e : Execution (ShareState S) (ShareMessage S)) : Prop where
  rounds : e.rounds = 1
  nodup : (e.protocol.validShares.map P.getId).Nodup
  subset : ∀ share ∈ e.protocol.validShares, P.getId share ∈ e.protocol.receivedShareIds
  checked : ∀ share ∈ e.protocol.validShares,
    P.ownShare (rng 0) = .ok share ∨ P.verifyShare share = .ok true
  finalized : e.finalized.length ≤ 1
  threshold : ∀ state ∈ e.finalized, P.threshold.toNat ≤ state.validShares.length

/-- What the shares a node may come to hold assemble to: its own and accepted ones among the
messages, of distinct parties and at least as many as the threshold. -/
def Determined (drawn : Drawn) (messages : List (ShareMessage S)) (output : ProtocolOutcome Bytes) :
    Prop :=
  ∀ own shares, P.ownShare drawn = .ok own → own ∈ shares → (shares.map P.getId).Nodup →
    P.threshold.toNat ≤ shares.length →
    (∀ s ∈ shares, s = own ∨ (.share s ∈ messages ∧ P.verifyShare s = .ok true)) →
    P.assemble shares = output

variable {P} {rng : ℕ → Drawn} {messages : List (ShareMessage S)}

theorem disciplined_run (messages : List (ShareMessage S)) :
    P.Disciplined rng (P.run rng messages) := by
  by_cases hown : ∃ own, P.ownShare (rng 0) = .ok own
  · obtain ⟨own, hown⟩ := hown
    have h := runInv_run hown messages
    refine ⟨h.rounds, h.collected.nodup, h.collected.subset, ?_, h.finalized, h.threshold⟩
    intro share hshare
    rcases (h.collected.mem share).mp hshare with rfl | ⟨-, -, haccept⟩
    · exact .inl hown
    · exact .inr haccept
  · obtain ⟨status, -, -, heq⟩ := run_of_ownShare_ne (not_exists.mp hown) messages
    rw [heq]
    refine ⟨rfl, List.nodup_nil, ?_, ?_, Nat.zero_le _, ?_⟩
    · intro share hshare
      cases hshare
    · intro share hshare
      cases hshare
    · intro state hstate
      cases hstate

/-- A share is sent only when it could be computed. -/
theorem ownShare_of_sent (h : (P.run rng messages).sent ≠ []) :
    ∃ own, P.ownShare (rng 0) = .ok own := by
  by_contra hown
  obtain ⟨status, -, -, heq⟩ := run_of_ownShare_ne (not_exists.mp hown) messages
  rw [heq] at h
  exact h rfl

/-- Only messages of the run are delivered. -/
theorem mem_of_mem_deliveredShares {share : S} (h : share ∈ deliveredShares (P.run rng messages)) :
    ShareMessage.share share ∈ messages := by
  have hall : ∀ m ∈ (P.run rng messages).delivered, m ∈ messages := by
    refine Execution.run_induction (motive := fun e => ∀ m ∈ e.delivered, m ∈ messages) ?_ ?_
    · intro m hm
      rcases Execution.performRound_cases P.protocol rng
        (⟨ShareState.new S, [], [], .running⟩ : Execution _ (ShareMessage S)) with
        ⟨_, _, -, heq⟩ | ⟨_, -, heq⟩ | ⟨-, heq⟩ <;>
      · rw [Execution.start, heq] at hm
        cases hm
    · intro e message hmessage hrunning hsubset
      have hstep : ∀ m ∈ e.delivered ++ [message], m ∈ messages := by
        intro m hm
        rcases List.mem_append.mp hm with hm | hm
        · exact hsubset m hm
        · rwa [List.mem_singleton.mp hm]
      rw [Execution.delivered_onMessage hrunning]
      exact hstep
  obtain ⟨m, hm, hshare⟩ := List.mem_filterMap.mp h
  cases m with
  | share s =>
      obtain rfl := Option.some.inj hshare
      exact hall _ hm
  | default => cases hshare

/-- A node that finishes returns what its shares are determined to assemble to. -/
theorem Determined.result {output : ProtocolOutcome Bytes} (h : P.Determined (rng 0) messages output)
    {result : Bytes} (hresult : (P.run rng messages).status = .finished result) :
    output = .ok result := by
  by_cases hown : ∃ own, P.ownShare (rng 0) = .ok own
  · obtain ⟨own, hown⟩ := hown
    have hinv := runInv_run hown messages
    obtain ⟨hthreshold, hassemble⟩ := hinv.result result hresult
    rw [← hassemble, h own _ hown ((hinv.collected.mem own).mpr (.inl rfl)) hinv.collected.nodup
      hthreshold]
    intro share hshare
    rcases (hinv.collected.mem share).mp hshare with rfl | ⟨-, hfind, haccept⟩
    · exact .inl rfl
    · exact .inr ⟨mem_of_mem_deliveredShares (List.mem_of_find?_eq_some hfind), haccept⟩
  · obtain ⟨status, -, hunfinished, heq⟩ := run_of_ownShare_ne (not_exists.mp hown) messages
    rw [heq] at hresult
    exact absurd hresult (hunfinished result)

/-- It is enough that the own share and the accepted ones are of one kind, and that lists of this kind
assemble to the output. -/
theorem determined_of_kind {T : Type} {f : T → S} {Q : T → Prop} {drawn : Drawn}
    {output : ProtocolOutcome Bytes}
    (hown : ∀ own, P.ownShare drawn = .ok own → ∃ t, own = f t ∧ Q t)
    (haccept : ∀ s, .share s ∈ messages → P.verifyShare s = .ok true → ∃ t, s = f t ∧ Q t)
    (hassemble : ∀ ts : List T, ts ≠ [] → (∀ t ∈ ts, Q t) →
      ((ts.map f).map P.getId).Nodup → P.threshold.toNat ≤ ts.length →
      P.assemble (ts.map f) = output) :
    P.Determined drawn messages output := by
  have hlist : ∀ shares : List S, (∀ s ∈ shares, ∃ t, s = f t ∧ Q t) →
      ∃ ts : List T, shares = ts.map f ∧ ∀ t ∈ ts, Q t := by
    intro shares h
    induction shares with
    | nil => exact ⟨[], rfl, by simp⟩
    | cons s shares ih =>
        obtain ⟨t, rfl, ht⟩ := h s List.mem_cons_self
        obtain ⟨ts, rfl, hts⟩ := ih fun s hs => h s (List.mem_cons_of_mem _ hs)
        exact ⟨t :: ts, rfl, by simpa using ⟨ht, hts⟩⟩
  intro own shares hshare hmem hnodup hthreshold hshares
  obtain ⟨ts, rfl, hts⟩ := hlist shares fun s hs => by
    rcases hshares s hs with rfl | ⟨hmessage, hverify⟩
    · exact hown s hshare
    · exact haccept s hmessage hverify
  refine hassemble ts ?_ hts hnodup (by rwa [List.length_map] at hthreshold)
  rintro rfl
  cases hmem

end ShareRound

section Schemes

variable {K : Curves} {E : Primitives} {c : Curve} {k n : ℕ} {keyRng : ℕ → ℕ} {drawn : Drawn}

/-- The share of a cipher node is the one `partial_decrypt` computes. -/
theorem partialDecrypt_of_ownShare {privateKey : PrivateKeyShare K} {ciphertext : Ciphertext K}
    {own : DecryptionShare K}
    (h : (ThresholdCipherProtocol E privateKey ciphertext).ownShare drawn = .ok own) :
    ThresholdCipher.verifyCiphertext E ciphertext privateKey.getPublicKey = .ok true
      ∧ ThresholdCipher.partialDecrypt E ciphertext privateKey drawn = .ok own := by
  obtain ⟨valid, hvalid, hown⟩ := Outcome.bind_eq_ok.mp h
  cases valid with
  | false => simp at hown
  | true => exact ⟨liftScheme_eq_ok.mp hvalid, liftScheme_eq_ok.mp (by simpa using hown)⟩

/-! ### Sg02 -/

theorem verifyShare_sg02 {share : DecryptionShare K} {ct : Sg02Ciphertext (K.Point c)}
    {pk : Sg02PublicKey (K.Point c)}
    (h : ThresholdCipher.verifyShare E share (.sg02 c ct) (.sg02 c pk) = .ok true) :
    ∃ s, share = .sg02 c s ∧ Sg02ThresholdCipher.verifyShare E (K.ecp c) s ct pk = .ok true := by
  cases share with
  | sg02 c' s =>
      simp only [ThresholdCipher.verifyShare, onCurve_eq_ok, onCurve_self] at h
      obtain ⟨rfl, h⟩ := h
      exact ⟨s, rfl, h⟩
  | bz03 c' s => simp [ThresholdCipher.verifyShare] at h

/-- The parties of a dealing of Sg02 keys decrypt what was encrypted under its public key. -/
theorem determined_sg02 {keys : List (Sg02PrivateKey (K.Point c))}
    (hkeys : Sg02ThresholdCipher.generateKeys E (K.ecp c) k n keyRng = .ok keys)
    (hn : n < (K.ecp c).order) {sk : Sg02PrivateKey (K.Point c)} (hsk : sk ∈ keys)
    {msg label : Bytes} {params : Drawn} {ct : Sg02Ciphertext (K.Point c)}
    (hct : Sg02ThresholdCipher.encrypt E (K.ecp c) msg label sk.pubkey params = .ok ct)
    {messages : List (ShareMessage (DecryptionShare K))}
    (hsound : ∀ s, .share (.sg02 c s) ∈ messages →
      Sg02ThresholdCipher.verifyShare E (K.ecp c) s ct sk.pubkey = .ok true →
      s.data = ct.u ^ dealtShare (K.ecp c).order k keyRng s.id) :
    (ThresholdCipherProtocol E (.sg02 c sk) (.sg02 c ct)).Determined drawn messages (.ok msg) := by
  obtain ⟨hpos, hle, hxi, hpubkey⟩ := Sg02ThresholdCipher.exists_party_of_mem hkeys hsk
  obtain ⟨hk, hkn, hn', -⟩ := Sg02ThresholdCipher.generateKeys_eq_ok.mp hkeys
  refine ShareRound.determined_of_kind (f := .sg02 c) (Q := fun s => s.id.toNat ≤ n
    ∧ s.data = ct.u ^ dealtShare (K.ecp c).order k keyRng s.id) ?_ ?_ ?_
  · intro own hown
    have hshare := (partialDecrypt_of_ownShare hown).2
    simp only [ThresholdCipher.partialDecrypt, onCurve_self, Outcome.ok.injEq] at hshare
    exact ⟨_, hshare.symm, hle, congrArg (ct.u ^ ·) hxi⟩
  · intro share hmessage hverify
    obtain ⟨s, rfl, haccept⟩ := verifyShare_sg02 hverify
    refine ⟨s, rfl, ?_, hsound s hmessage haccept⟩
    rw [hpubkey] at haccept
    exact (Sg02ThresholdCipher.toNat_of_verifyShare_eq_ok_true haccept).2
  · intro shares hne hshares hnodup hthreshold
    have hk' : (ThresholdCipherProtocol E (.sg02 c sk) (.sg02 c ct)).threshold.toNat = k := by
      change sk.pubkey.k.toNat = k
      rw [hpubkey]
      exact toNat_ofNat_of_le (hkn.trans hn')
    rw [hk'] at hthreshold
    rw [hpubkey] at hct
    rw [List.map_map] at hnodup
    change liftScheme (ThresholdCipher.assemble E (shares.map _) _) = _
    rw [liftScheme_eq_ok, ThresholdCipher.assemble_sg02 E hne]
    exact Sg02ThresholdCipher.assemble_eq_ok hk hn hct (fun s hs => (hshares s hs).2) hthreshold
      hnodup fun s hs => (hshares s hs).1

/-! ### Bz03 -/

theorem verifyShare_bz03 {share : DecryptionShare K} (hc : c.group.supportsPairings = true)
    {ct : Bz03Ciphertext (K.Point2 c) (K.Point c)} {pk : Bz03PublicKey (K.Point2 c) (K.Point c)}
    (h : ThresholdCipher.verifyShare E share (.bz03 c ct) (.bz03 c pk) = .ok true) :
    ∃ s, share = .bz03 c s
      ∧ Bz03ThresholdCipher.verifyShare (K.pairingCurve c hc) s ct pk = .ok true := by
  cases share with
  | sg02 c' s => simp [ThresholdCipher.verifyShare] at h
  | bz03 c' s =>
      simp only [ThresholdCipher.verifyShare, withPairing_eq hc, onCurve_eq_ok, onCurve_self] at h
      obtain ⟨rfl, h⟩ := h
      exact ⟨s, rfl, h⟩

/-- The parties of a dealing of Bz03 keys decrypt what was encrypted under its public key. -/
theorem determined_bz03 (hc : c.group.supportsPairings = true)
    {keys : List (Bz03PrivateKey (K.Point2 c) (K.Point c))}
    (hkeys : Bz03ThresholdCipher.generateKeys E (K.pairingCurve c hc) k n keyRng = .ok keys)
    (hn' : n ≤ 65535) (hn : n < (K.ecp c).order)
    {sk : Bz03PrivateKey (K.Point2 c) (K.Point c)} (hsk : sk ∈ keys)
    {msg label : Bytes} {params : Drawn} {ct : Bz03Ciphertext (K.Point2 c) (K.Point c)}
    (hct : Bz03ThresholdCipher.encrypt E (K.pairingCurve c hc) msg label sk.pubkey params = .ok ct)
    (messages : List (ShareMessage (DecryptionShare K))) :
    (ThresholdCipherProtocol E (.bz03 c sk) (.bz03 c ct)).Determined drawn messages (.ok msg) := by
  obtain ⟨hpos, hle, hxi⟩ := Bz03ThresholdCipher.exists_party_of_mem hn' hkeys hsk
  have hpubkey := Bz03ThresholdCipher.pubkey_of_mem hkeys hsk
  obtain ⟨hk, hkn, -⟩ := Bz03ThresholdCipher.generateKeys_eq_ok.mp hkeys
  refine ShareRound.determined_of_kind (f := .bz03 c) (Q := fun s => s.id.toNat ≤ n
    ∧ s.data = ct.u ^ dealtShare (K.ecp c).order k keyRng s.id) ?_ ?_ ?_
  · intro own hown
    have hshare := (partialDecrypt_of_ownShare hown).2
    simp only [ThresholdCipher.partialDecrypt, onCurve_self, Outcome.ok.injEq] at hshare
    exact ⟨_, hshare.symm, hle, congrArg (ct.u ^ ·) hxi⟩
  · intro share hmessage hverify
    obtain ⟨s, rfl, haccept⟩ := verifyShare_bz03 (E := E) hc hverify
    rw [hpubkey] at haccept
    exact ⟨s, rfl, (Bz03ThresholdCipher.of_verifyShare_eq_ok_true haccept).2⟩
  · intro shares hne hshares hnodup hthreshold
    have hk' : (ThresholdCipherProtocol E (.bz03 c sk) (.bz03 c ct)).threshold.toNat = k := by
      change sk.pubkey.k.toNat = k
      rw [hpubkey]
      exact toNat_ofNat_of_le (hkn.trans hn')
    rw [hk'] at hthreshold
    rw [hpubkey] at hct
    rw [List.map_map] at hnodup
    change liftScheme (ThresholdCipher.assemble E (shares.map _) _) = _
    rw [liftScheme_eq_ok, ThresholdCipher.assemble_bz03 E hne]
    exact Bz03ThresholdCipher.assemble_eq_ok hk hn hct (fun s hs => (hshares s hs).2) hthreshold
      hnodup fun s hs => (hshares s hs).1

/-! ### Bls04 -/

theorem verifyShare_bls04 {share : SignatureShare K} (hc : c.group.supportsPairings = true)
    {msg : Bytes} {pk : Bls04PublicKey (K.Point c)}
    (h : ThresholdSignature.verifyShare E share msg (.bls04 c pk) = .ok true) :
    ∃ s, share = .bls04 c s
      ∧ Bls04ThresholdSignature.verifyShare E (K.pairingCurve c hc) s msg pk = .ok true := by
  cases share with
  | bls04 c' s =>
      simp only [ThresholdSignature.verifyShare, withPairing_eq_ok, onCurve_eq_ok] at h
      obtain ⟨hc', rfl, h⟩ := h
      exact ⟨s, rfl, h⟩
  | sh00 s => simp [ThresholdSignature.verifyShare] at h
  | frost c' s => simp [ThresholdSignature.verifyShare] at h

/-- The parties of a dealing of Bls04 keys issue the signature of the message. -/
theorem determined_bls04 (hc : c.group.supportsPairings = true)
    {keys : List (Bls04PrivateKey (K.Point c))}
    (hkeys : Bls04ThresholdSignature.generateKeys E (K.pairingCurve c hc) k n keyRng = .ok keys)
    (hn' : n ≤ 65535) (hn : n < (K.ecp c).order) {sk : Bls04PrivateKey (K.Point c)}
    (hsk : sk ∈ keys) (msg label : Bytes) (messages : List (ShareMessage (SignatureShare K))) :
    (ThresholdSignatureProtocol E (.bls04 c sk) (some msg) label).Determined drawn messages
      (.ok ((Signature.bls04 (K := K) c ⟨Bls04ThresholdSignature.H E (K.pairingCurve c hc) msg
        ^ dealtSecret (K.ecp c).order keyRng⟩).toBytes E)) := by
  obtain ⟨hpos, hle, hxi⟩ := Bls04ThresholdSignature.exists_party_of_mem hn' hkeys hsk
  have hpubkey := Bls04ThresholdSignature.pubkey_of_mem hkeys hsk
  obtain ⟨hk, hkn, -⟩ := Bls04ThresholdSignature.generateKeys_eq_ok.mp hkeys
  refine ShareRound.determined_of_kind (f := .bls04 c) (Q := fun s => s.id.toNat ≤ n
    ∧ s.data = Bls04ThresholdSignature.H E (K.pairingCurve c hc) msg
      ^ dealtShare (K.ecp c).order k keyRng s.id) ?_ ?_ ?_
  · intro own hown
    obtain ⟨_, ⟨⟩, hown⟩ := Outcome.bind_eq_ok.mp hown
    have hshare := liftScheme_eq_ok.mp hown
    simp only [ThresholdSignature.partialSign, withPairing_eq hc, Outcome.ok.injEq] at hshare
    exact ⟨_, hshare.symm, hle,
      congrArg (Bls04ThresholdSignature.H E (K.pairingCurve c hc) msg ^ ·) hxi⟩
  · intro share hmessage hverify
    obtain ⟨s, rfl, haccept⟩ := verifyShare_bls04 hc hverify
    rw [hpubkey] at haccept
    exact ⟨s, rfl, (Bls04ThresholdSignature.of_verifyShare_eq_ok_true haccept).2⟩
  · intro shares hne hshares hnodup hthreshold
    have hk' : (ThresholdSignatureProtocol E (.bls04 c sk) (some msg) label).threshold.toNat
        = k := by
      change sk.pubkey.k.toNat = k
      rw [hpubkey]
      exact toNat_ofNat_of_le (hkn.trans hn')
    rw [hk'] at hthreshold
    rw [List.map_map] at hnodup
    have hassemble := Bls04ThresholdSignature.assemble_eq_ok hk hn (fun s hs => (hshares s hs).2)
      hthreshold hnodup (fun s hs => (hshares s hs).1) sk.pubkey
    change (liftScheme (ThresholdSignature.assemble E (shares.map _) msg (.bls04 c sk.pubkey))
      >>= fun sig => .ok (sig.toBytes E)) = _
    rw [ThresholdSignature.assemble_bls04 E hne]
    change (liftScheme (_ <$> Bls04ThresholdSignature.assemble
      (K.pairingCurve c hc).ecp2 shares msg sk.pubkey) >>= _) = _
    rw [hassemble]
    rfl

/-! ### Cks05 -/

theorem verifyShare_cks05 {share : CoinShare K} {name : Bytes} {pk : Cks05PublicKey (K.Point c)}
    (h : ThresholdCoin.verifyShare E share name (.cks05 c pk) = .ok true) :
    ∃ s, share = .cks05 c s ∧ Cks05ThresholdCoin.verifyShare E (K.ecp c) s name pk = .ok true := by
  cases share with
  | cks05 c' s =>
      simp only [ThresholdCoin.verifyShare, onCurve_eq_ok] at h
      obtain ⟨rfl, h⟩ := h
      exact ⟨s, rfl, h⟩

/-- The parties of a dealing of Cks05 keys toss the coin of the name. -/
theorem determined_cks05 {keys : List (Cks05PrivateKey (K.Point c))}
    (hkeys : Cks05ThresholdCoin.generateKeys E (K.ecp c) k n keyRng = .ok keys)
    (hn' : n ≤ 65535) (hn : n < (K.ecp c).order) {sk : Cks05PrivateKey (K.Point c)}
    (hsk : sk ∈ keys) {name : Bytes} {messages : List (ShareMessage (CoinShare K))}
    (hsound : ∀ s, .share (.cks05 c s) ∈ messages →
      Cks05ThresholdCoin.verifyShare E (K.ecp c) s name sk.pubkey = .ok true →
      s.data = Cks05ThresholdCoin.H E (K.ecp c) name ^ dealtShare (K.ecp c).order k keyRng s.id) :
    (ThresholdCoinProtocol E (.cks05 c sk) name).Determined drawn messages
      (liftScheme (Cks05ThresholdCoin.H2 (K.ecp c) (Cks05ThresholdCoin.H E (K.ecp c) name
        ^ dealtSecret (K.ecp c).order keyRng)) >>= fun coin => .ok [coin]) := by
  obtain ⟨hpos, hle, hxi⟩ := Cks05ThresholdCoin.exists_party_of_mem hn' hkeys hsk
  have hpubkey := Cks05ThresholdCoin.pubkey_of_mem hkeys hsk
  obtain ⟨hk, hkn, -⟩ := Cks05ThresholdCoin.generateKeys_eq_ok.mp hkeys
  refine ShareRound.determined_of_kind (f := .cks05 c) (Q := fun s => s.id.toNat ≤ n
    ∧ s.data = Cks05ThresholdCoin.H E (K.ecp c) name ^ dealtShare (K.ecp c).order k keyRng s.id)
    ?_ ?_ ?_
  · intro own hown
    obtain ⟨s, hs, rfl⟩ := Outcome.map_eq_ok.mp (liftScheme_eq_ok.mp hown)
    obtain ⟨vk, -, hs⟩ := Outcome.bind_eq_ok.mp hs
    obtain rfl := Outcome.ok.inj hs
    exact ⟨_, rfl, hle, congrArg (Cks05ThresholdCoin.H E (K.ecp c) name ^ ·) hxi⟩
  · intro share hmessage hverify
    obtain ⟨s, rfl, haccept⟩ := verifyShare_cks05 hverify
    refine ⟨s, rfl, ?_, hsound s hmessage haccept⟩
    rw [hpubkey] at haccept
    exact (Cks05ThresholdCoin.toNat_of_verifyShare_eq_ok_true haccept).2
  · intro shares hne hshares hnodup hthreshold
    have hk' : (ThresholdCoinProtocol E (.cks05 c sk) name).threshold.toNat = k := by
      change sk.pubkey.k.toNat = k
      rw [hpubkey]
      exact toNat_ofNat_of_le (hkn.trans hn')
    rw [hk'] at hthreshold
    rw [List.map_map] at hnodup
    change (liftScheme (ThresholdCoin.assemble (shares.map _)) >>= fun coin => .ok [coin]) = _
    rw [ThresholdCoin.assemble_cks05 hne, Cks05ThresholdCoin.assemble_eq hk hn
      (fun s hs => (hshares s hs).2) hthreshold hnodup fun s hs => (hshares s hs).1]

/-! ### Sh00 -/

theorem verifyShare_sh00 {share : SignatureShare K} {msg : Bytes} {pk : Sh00PublicKey}
    (h : ThresholdSignature.verifyShare E share msg (.sh00 pk) = .ok true) :
    ∃ s, share = .sh00 s ∧ Sh00ThresholdSignature.verifyShare E s msg pk = .ok true := by
  cases share with
  | bls04 c' s => simp [ThresholdSignature.verifyShare] at h
  | sh00 s => exact ⟨s, rfl, h⟩
  | frost c' s => simp [ThresholdSignature.verifyShare] at h

/-- A node has a share only if the message has a hash. -/
theorem ownShare_sh00 {sk : Sh00PrivateKey} {msg label : Bytes} {own : SignatureShare K}
    (h : (ThresholdSignatureProtocol E (.sh00 sk) (some msg) label).ownShare drawn = .ok own) :
    ∃ s x j, own = .sh00 s ∧ Sh00ThresholdSignature.H E msg sk.pubkey = .ok (x, j) ∧ s.id = sk.id
      ∧ s.xi = BigInt.powModNat x (sk.si + sk.si) sk.pubkey.N := by
  obtain ⟨_, ⟨⟩, hown⟩ := Outcome.bind_eq_ok.mp h
  obtain ⟨s, hs, rfl⟩ := Outcome.map_eq_ok.mp (liftScheme_eq_ok.mp hown)
  obtain ⟨vi, -, hs⟩ := Outcome.bind_eq_ok.mp hs
  obtain ⟨⟨x, j⟩, hx, hs⟩ := Outcome.bind_eq_ok.mp hs
  obtain rfl := Outcome.ok.inj hs
  exact ⟨_, x, j, rfl, hx, rfl, rfl⟩

section Sh00

variable {group : Group} {e : ℕ} {draw : Sh00Draw group.modsize} {keys : List Sh00PrivateKey}
  {msg : Bytes}

/-- The parties of a dealing of Sh00 keys issue the signature that correct shares assemble to. -/
theorem determined_sh00 (hkeys : Sh00ThresholdSignature.generateKeys E group k n e draw = .ok keys)
    (hkn : k ≤ n) (hn : n ≤ 65535) {sk : Sh00PrivateKey} (hsk : sk ∈ keys) (hid : sk.id.toNat ≤ 255)
    {x : ℕ} {j : ℤ} (hx : Sh00ThresholdSignature.H E msg
      (Sh00ThresholdSignature.publicKey E group k n e draw) = .ok (x, j)) {sig : Sh00Signature}
    (hassemble : ∀ shares : List Sh00SignatureShare,
      (∀ s ∈ shares, s.xi ≡ x ^ (2 * Sh00ThresholdSignature.dealtRsaShare k n e draw s.id)
        [MOD draw.primes.modulus]) →
      (∀ s ∈ shares, 1 ≤ s.id.toNat ∧ s.id.toNat ≤ n ∧ s.id.toNat ≤ 255) →
      (shares.map Sh00SignatureShare.id).Nodup → k ≤ shares.length →
      Sh00ThresholdSignature.assemble E shares msg
        (Sh00ThresholdSignature.publicKey E group k n e draw) = .ok sig)
    {label : Bytes} {messages : List (ShareMessage (SignatureShare K))}
    (hsound : ∀ s, .share (.sh00 s) ∈ messages →
      Sh00ThresholdSignature.verifyShare E s msg
        (Sh00ThresholdSignature.publicKey E group k n e draw) = .ok true →
      s.id.toNat ≤ 255 ∧ s.xi ≡ x ^ (2 * Sh00ThresholdSignature.dealtRsaShare k n e draw s.id)
        [MOD draw.primes.modulus]) :
    (ThresholdSignatureProtocol E (.sh00 sk) (some msg) label).Determined drawn messages
      (.ok ((Signature.sh00 (K := K) sig).toBytes E)) := by
  obtain ⟨hpos, hle, hsi, hpubkey⟩ := Sh00ThresholdSignature.exists_party_of_mem draw hn hkeys hsk
  refine ShareRound.determined_of_kind (f := .sh00)
    (Q := fun s => (1 ≤ s.id.toNat ∧ s.id.toNat ≤ n ∧ s.id.toNat ≤ 255)
      ∧ s.xi ≡ x ^ (2 * Sh00ThresholdSignature.dealtRsaShare k n e draw s.id)
        [MOD draw.primes.modulus]) ?_ ?_ ?_
  · intro own hown
    obtain ⟨s, x', j', rfl, hx', hs, hxi⟩ := ownShare_sh00 hown
    rw [hpubkey] at hx' hxi
    obtain ⟨rfl, rfl⟩ := Prod.mk.inj (Outcome.ok.inj (hx.symm.trans hx'))
    refine ⟨s, rfl, hs ▸ ⟨hpos, hle, hid⟩, ?_⟩
    rw [hs, hxi, BigInt.powModNat_eq, ← hsi, Nat.two_mul]
    exact Nat.mod_modEq _ _
  · intro share hmessage hverify
    have hverify' : ThresholdSignature.verifyShare E share msg
        (.sh00 (Sh00ThresholdSignature.publicKey E group k n e draw)) = .ok true := by
      rw [← hpubkey]
      exact hverify
    obtain ⟨s, rfl, haccept⟩ := verifyShare_sh00 hverify'
    obtain ⟨hs, hdata⟩ := hsound s hmessage haccept
    obtain ⟨hpos, hle⟩ := Sh00ThresholdSignature.toNat_of_verifyShare_eq_ok_true draw.dealing haccept
    exact ⟨s, rfl, ⟨hpos, hle, hs⟩, hdata⟩
  · intro shares hne hshares hnodup hthreshold
    have hk' : (ThresholdSignatureProtocol (K := K) E (.sh00 sk) (some msg) label).threshold.toNat
        = k := by
      change sk.pubkey.t.toNat = k
      rw [hpubkey]
      exact toNat_ofNat_of_le (hkn.trans hn)
    rw [hk'] at hthreshold
    rw [List.map_map] at hnodup
    change (liftScheme (ThresholdSignature.assemble E (shares.map _) msg (.sh00 sk.pubkey))
      >>= fun sig => .ok (sig.toBytes E)) = _
    have hsig : Sh00ThresholdSignature.assemble E shares msg
        (Sh00ThresholdSignature.publicKey E group k n e draw) = .ok sig :=
      hassemble shares (fun s hs => (hshares s hs).2) (fun s hs => (hshares s hs).1) hnodup
        hthreshold
    rw [ThresholdSignature.assemble_sh00, hpubkey, hsig]
    rfl

/-- The parties of a dealing of Sh00 keys issue one signature, when the ids that take part are below
256, and it is the only one that verifies. -/
theorem exists_determined_sh00
    (hkeys : Sh00ThresholdSignature.generateKeys E group k n e draw = .ok keys) (hk : 1 ≤ k)
    (hn : n ≤ 65535) (msg : Bytes) :
    ∃ output : ProtocolOutcome Bytes, ∃ sig : Sh00Signature,
      (∀ result, output = .ok result → result = (Signature.sh00 (K := K) sig).toBytes E
        ∧ (e.Coprime (2 * draw.primes.order) → ∀ sk ∈ keys, ∀ sig',
          Sh00ThresholdSignature.verify E sig' sk.pubkey msg = .ok true
            ↔ sig'.sig % draw.primes.modulus = sig.sig))
      ∧ ∀ sk ∈ keys, sk.id.toNat ≤ 255 → ∀ (label : Bytes) (drawn : Drawn)
        (messages : List (ShareMessage (SignatureShare K))),
        (∀ s, .share (.sh00 s) ∈ messages →
          Sh00ThresholdSignature.verifyShare E s msg sk.pubkey = .ok true →
          s.id.toNat ≤ 255 ∧ ∀ x j, Sh00ThresholdSignature.H E msg sk.pubkey = .ok (x, j) →
            s.xi ≡ x ^ (2 * Sh00ThresholdSignature.dealtRsaShare k n e draw s.id)
              [MOD draw.primes.modulus]) →
        (ThresholdSignatureProtocol E (.sh00 sk) (some msg) label).Determined drawn messages
          output := by
  obtain ⟨_, hparams, -⟩ := Outcome.bind_eq_ok.mp hkeys
  have hkn : k ≤ n := by
    unfold checkParams at hparams
    split at hparams
    · cases hparams
    · omega
  have hsize := Sh00ThresholdSignature.lt_of_generateKeys draw hn hkeys
  have hpubkey := fun (sk : Sh00PrivateKey) (hsk : sk ∈ keys) =>
    (Sh00ThresholdSignature.exists_party_of_mem draw hn hkeys hsk).2.2.2
  by_cases hhash : ∃ x j, Sh00ThresholdSignature.H E msg
      (Sh00ThresholdSignature.publicKey E group k n e draw) = .ok (x, j)
  · obtain ⟨x, j, hx⟩ := hhash
    obtain ⟨sig, -, hassemble, hunique⟩ := Sh00ThresholdSignature.exists_signature draw.dealing hk
      (Sh00ThresholdSignature.coprime_fac draw hsize) hx
    refine ⟨.ok ((Signature.sh00 (K := K) sig).toBytes E), sig, ?_, ?_⟩
    · rintro result ⟨⟩
      refine ⟨rfl, fun he sk hsk => ?_⟩
      rw [hpubkey sk hsk]
      exact hunique he
    · intro sk hsk hid label drawn messages hsound
      rw [hpubkey sk hsk] at hsound
      refine determined_sh00 hkeys hkn hn hsk hid hx hassemble ?_
      intro s hmessage haccept
      obtain ⟨hs, hdata⟩ := hsound s hmessage haccept
      exact ⟨hs, hdata x j hx⟩
  · -- the hash of the message shares a factor with the modulus: no node gets as far as a share
    refine ⟨.panic, ⟨0⟩, by simp, ?_⟩
    intro sk hsk hid label drawn messages hsound own shares hown
    obtain ⟨s, x, j, -, hx, -⟩ := ownShare_sh00 hown
    rw [hpubkey sk hsk] at hx
    exact absurd ⟨x, j, hx⟩ hhash

end Sh00

end Schemes

/-! ### What the nodes of one request return -/

section Requests

variable (K : Curves) (E : Primitives)

/-- All nodes that finish the decryption of an Sg02 ciphertext return its plaintext. -/
def Sg02Agrees : Prop :=
  ∀ (c : Curve) (k n : ℕ) (keyRng : ℕ → ℕ) (keys : List (Sg02PrivateKey (K.Point c))),
    Sg02ThresholdCipher.generateKeys E (K.ecp c) k n keyRng = .ok keys → n < (K.ecp c).order →
    ∀ (msg label : Bytes) (params : Drawn) (ct : Sg02Ciphertext (K.Point c)), ∀ dealt ∈ keys,
      Sg02ThresholdCipher.encrypt E (K.ecp c) msg label dealt.pubkey params = .ok ct →
    ∀ sk ∈ keys, ∀ (rng : ℕ → Drawn) (messages : List (ShareMessage (DecryptionShare K))),
      (∀ s, .share (.sg02 c s) ∈ messages →
        Sg02ThresholdCipher.verifyShare E (K.ecp c) s ct sk.pubkey = .ok true →
        s.data = ct.u ^ dealtShare (K.ecp c).order k keyRng s.id) →
    ∀ result, ((ThresholdCipherProtocol E (.sg02 c sk) (.sg02 c ct)).run rng messages).status
        = .finished result → result = msg

/-- All nodes that finish the decryption of a Bz03 ciphertext return its plaintext. -/
def Bz03Agrees : Prop :=
  ∀ (c : Curve) (hc : c.group.supportsPairings = true) (k n : ℕ) (keyRng : ℕ → ℕ)
      (keys : List (Bz03PrivateKey (K.Point2 c) (K.Point c))),
    Bz03ThresholdCipher.generateKeys E (K.pairingCurve c hc) k n keyRng = .ok keys →
    n ≤ 65535 → n < (K.ecp c).order →
    ∀ (msg label : Bytes) (params : Drawn) (ct : Bz03Ciphertext (K.Point2 c) (K.Point c)),
      ∀ dealt ∈ keys,
      Bz03ThresholdCipher.encrypt E (K.pairingCurve c hc) msg label dealt.pubkey params = .ok ct →
    ∀ sk ∈ keys, ∀ (rng : ℕ → Drawn) (messages : List (ShareMessage (DecryptionShare K))) result,
      ((ThresholdCipherProtocol E (.bz03 c sk) (.bz03 c ct)).run rng messages).status
        = .finished result → result = msg

/-- All nodes that finish a Bls04 signature return the one signature of the message. -/
def Bls04Agrees : Prop :=
  ∀ (c : Curve) (hc : c.group.supportsPairings = true) (k n : ℕ) (keyRng : ℕ → ℕ)
      (keys : List (Bls04PrivateKey (K.Point c))),
    Bls04ThresholdSignature.generateKeys E (K.pairingCurve c hc) k n keyRng = .ok keys →
    n ≤ 65535 → n < (K.ecp c).order →
    ∀ msg : Bytes, ∃ sig,
      (∀ dealt ∈ keys, ∀ sig', Bls04ThresholdSignature.verify E (K.pairingCurve c hc) sig'
        dealt.pubkey msg = .ok true ↔ sig' = sig)
      ∧ ∀ sk ∈ keys, ∀ (label : Bytes) (rng : ℕ → Drawn)
        (messages : List (ShareMessage (SignatureShare K))) result,
        ((ThresholdSignatureProtocol E (.bls04 c sk) (some msg) label).run rng messages).status
          = .finished result → result = (Signature.bls04 (K := K) c sig).toBytes E

/-- All nodes that finish a Cks05 coin return the coin of the name. -/
def Cks05Agrees : Prop :=
  ∀ (c : Curve) (k n : ℕ) (keyRng : ℕ → ℕ) (keys : List (Cks05PrivateKey (K.Point c))),
    Cks05ThresholdCoin.generateKeys E (K.ecp c) k n keyRng = .ok keys →
    n ≤ 65535 → n < (K.ecp c).order →
    ∀ name : Bytes, ∀ sk ∈ keys, ∀ (rng : ℕ → Drawn) (messages : List (ShareMessage (CoinShare K))),
      (∀ s, .share (.cks05 c s) ∈ messages →
        Cks05ThresholdCoin.verifyShare E (K.ecp c) s name sk.pubkey = .ok true →
        s.data = Cks05ThresholdCoin.H E (K.ecp c) name ^ dealtShare (K.ecp c).order k keyRng s.id) →
    ∀ result, ((ThresholdCoinProtocol E (.cks05 c sk) name).run rng messages).status
        = .finished result →
      ∃ coin, Cks05ThresholdCoin.H2 (K.ecp c) (Cks05ThresholdCoin.H E (K.ecp c) name
          ^ dealtSecret (K.ecp c).order keyRng) = .ok coin ∧ result = [coin]

/-- All nodes that finish a Sh00 signature return one signature, and it is the only one that
verifies. The ids that take part have to be below 256. -/
def Sh00Agrees : Prop :=
  ∀ (group : Group) (k n e : ℕ) (draw : Sh00Draw group.modsize) (keys : List Sh00PrivateKey),
    Sh00ThresholdSignature.generateKeys E group k n e draw = .ok keys → 1 ≤ k → n ≤ 65535 →
    ∀ msg : Bytes, ∃ sig : Sh00Signature,
      ∀ sk ∈ keys, sk.id.toNat ≤ 255 → ∀ (label : Bytes) (rng : ℕ → Drawn)
        (messages : List (ShareMessage (SignatureShare K))),
        (∀ s, .share (.sh00 s) ∈ messages →
          Sh00ThresholdSignature.verifyShare E s msg sk.pubkey = .ok true →
          s.id.toNat ≤ 255 ∧ ∀ x j, Sh00ThresholdSignature.H E msg sk.pubkey = .ok (x, j) →
            s.xi ≡ x ^ (2 * Sh00ThresholdSignature.dealtRsaShare k n e draw s.id)
              [MOD draw.primes.modulus]) →
      ∀ result,
        ((ThresholdSignatureProtocol E (.sh00 sk) (some msg) label).run rng messages).status
          = .finished result →
        result = (Signature.sh00 (K := K) sig).toBytes E
        ∧ (e.Coprime (2 * draw.primes.order) → ∀ dealt ∈ keys, ∀ sig',
          Sh00ThresholdSignature.verify E sig' dealt.pubkey msg = .ok true
            ↔ sig'.sig % draw.primes.modulus = sig.sig)

variable {K E}

theorem sg02Agrees : Sg02Agrees K E := by
  intro c k n keyRng keys hkeys hn msg label params ct dealt hdealt hct sk hsk rng messages hsound
    result hresult
  have hpubkey : dealt.pubkey = sk.pubkey := by
    rw [(Sg02ThresholdCipher.exists_party_of_mem hkeys hdealt).2.2.2,
      (Sg02ThresholdCipher.exists_party_of_mem hkeys hsk).2.2.2]
  rw [hpubkey] at hct
  exact (Outcome.ok.inj ((determined_sg02 hkeys hn hsk hct hsound).result hresult)).symm

theorem bz03Agrees : Bz03Agrees K E := by
  intro c hc k n keyRng keys hkeys hn' hn msg label params ct dealt hdealt hct sk hsk rng messages
    result hresult
  rw [Bz03ThresholdCipher.pubkey_of_mem hkeys hdealt,
    ← Bz03ThresholdCipher.pubkey_of_mem hkeys hsk] at hct
  exact (Outcome.ok.inj ((determined_bz03 hc hkeys hn' hn hsk hct messages).result hresult)).symm

theorem bls04Agrees : Bls04Agrees K E := by
  intro c hc k n keyRng keys hkeys hn' hn msg
  refine ⟨⟨Bls04ThresholdSignature.H E (K.pairingCurve c hc) msg
    ^ dealtSecret (K.ecp c).order keyRng⟩, ?_, ?_⟩
  · intro dealt hdealt sig'
    rw [Bls04ThresholdSignature.pubkey_of_mem hkeys hdealt]
    exact Bls04ThresholdSignature.verify_eq_ok_true_iff
  · intro sk hsk label rng messages result hresult
    exact (Outcome.ok.inj
      ((determined_bls04 hc hkeys hn' hn hsk msg label messages).result hresult)).symm

theorem cks05Agrees : Cks05Agrees K E := by
  intro c k n keyRng keys hkeys hn' hn name sk hsk rng messages hsound result hresult
  have houtput := (determined_cks05 hkeys hn' hn hsk hsound).result hresult
  obtain ⟨coin, hcoin, hbytes⟩ := Outcome.bind_eq_ok.mp houtput
  exact ⟨coin, liftScheme_eq_ok.mp hcoin, (Outcome.ok.inj hbytes).symm⟩

theorem sh00Agrees : Sh00Agrees K E := by
  intro group k n e draw keys hkeys hk hn msg
  obtain ⟨output, sig, hsig, hdetermined⟩ := exists_determined_sh00 (K := K) hkeys hk hn msg
  refine ⟨sig, fun sk hsk hid label rng messages hsound result hresult => hsig result ?_⟩
  exact (hdetermined sk hsk hid label (rng 0) messages hsound).result hresult

variable (K E)

/-- Every run of the three protocols, on any messages, does one round, sends a decryption share only
for an accepted ciphertext, holds only checked shares of distinct parties and finalizes at most once
and with enough of them; and the nodes that finish a request agree. -/
theorem disciplined_and_agree :
    (∀ (privateKey : PrivateKeyShare K) (ciphertext : Ciphertext K) (rng : ℕ → Drawn)
        (messages : List (ShareMessage (DecryptionShare K))),
      let P := ThresholdCipherProtocol E privateKey ciphertext
      P.Disciplined rng (P.run rng messages)
        ∧ ((P.run rng messages).sent ≠ [] →
          ThresholdCipher.verifyCiphertext E ciphertext privateKey.getPublicKey = .ok true))
    ∧ (∀ (privateKey : PrivateKeyShare K) (message : Option Bytes) (label : Bytes)
        (rng : ℕ → Drawn) (messages : List (ShareMessage (SignatureShare K))),
      let P := ThresholdSignatureProtocol E privateKey message label
      P.Disciplined rng (P.run rng messages))
    ∧ (∀ (privateKey : PrivateKeyShare K) (name : Bytes) (rng : ℕ → Drawn)
        (messages : List (ShareMessage (CoinShare K))),
      let P := ThresholdCoinProtocol E privateKey name
      P.Disciplined rng (P.run rng messages))
    ∧ Sg02Agrees K E ∧ Bz03Agrees K E ∧ Bls04Agrees K E ∧ Cks05Agrees K E ∧ Sh00Agrees K E := by
  refine ⟨?_, fun _ _ _ _ messages => ShareRound.disciplined_run messages,
    fun _ _ _ messages => ShareRound.disciplined_run messages, sg02Agrees, bz03Agrees, bls04Agrees,
    cks05Agrees, sh00Agrees⟩
  intro privateKey ciphertext rng messages P
  refine ⟨ShareRound.disciplined_run messages, fun hsent => ?_⟩
  obtain ⟨own, hown⟩ := ShareRound.ownShare_of_sent hsent
  exact (partialDecrypt_of_ownShare hown).1

/-- Each of two parties signs the empty message with the share of the other one. -/
theorem disciplined_and_agree_seven :
    let node (id : UInt16) := ThresholdSignatureProtocol (K := Curves.seven) .truncating
      (.bls04 .bn254 (bls04KeySeven id)) (some []) []
    ∃ sig, Bls04ThresholdSignature.verify .truncating (Curves.seven.pairingCurve .bn254 rfl) sig
        (bls04KeySeven 1).pubkey [] = .ok true
      ∧ ∀ share, (node 1).ownShare .counting = .ok share →
        ((node 1).run (fun _ => .counting) [.share bls04ShareSeven]).status
          = .finished ((Signature.bls04 (K := Curves.seven) .bn254 sig).toBytes .truncating)
        ∧ ((node 2).run (fun _ => .counting) [.share share]).status
          = .finished ((Signature.bls04 (K := Curves.seven) .bn254 sig).toBytes .truncating) := by
  intro node
  obtain ⟨-, -, -, -, -, hbls04, -⟩ := disciplined_and_agree Curves.seven .truncating
  obtain ⟨sig, hverify, hresult⟩ := hbls04 .bn254 rfl 2 2 _ _ generateKeys_bls04KeySeven
    (by decide) (by decide) []
  refine ⟨sig, (hverify _ List.mem_cons_self sig).mpr rfl, fun share hshare => ?_⟩
  obtain rfl := Outcome.ok.inj hshare
  have hfirst : ∃ result, ((node 1).run (fun _ => .counting) [.share bls04ShareSeven]).status
      = .finished result := ⟨_, rfl⟩
  have hsecond : ∃ result, ((node 2).run (fun _ => .counting) [.share (.bls04 .bn254
      (Bls04ThresholdSignature.partialSign .truncating (Curves.seven.pairingCurve .bn254 rfl) [] []
        (bls04KeySeven 1)))]).status = .finished result := ⟨_, rfl⟩
  obtain ⟨result, hfirst⟩ := hfirst
  obtain ⟨result', hsecond⟩ := hsecond
  exact ⟨hfirst.trans (congrArg _ (hresult _ List.mem_cons_self _ _ _ _ hfirst)),
    hsecond.trans (congrArg _ (hresult _ (.tail _ (.head _)) _ _ _ _ hsecond))⟩

end Requests

end QuorumCrypt
