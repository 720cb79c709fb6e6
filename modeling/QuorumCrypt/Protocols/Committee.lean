import QuorumCrypt.Protocols.Agreement

/-!
# The parties of one request

Parties that run a protocol of one round on the same request, each with its own key. They accept each
other's shares, and any shares of as many parties as the threshold assemble to one output. Among such
parties a node finishes as soon as it has a message and the shares of enough parties, its own included,
and it never fails: `Committee.status_run` says exactly when, for any order and any repetition.

The parties of a dealing are a committee for Sg02, Bz03, Bls04 and Cks05.
-/

namespace QuorumCrypt

open Rust

/-- The protocols of the parties of a request. What a party draws for its share is left open. -/
structure Committee {ι S : Type} (party : ι → ShareRound S) (ident : ι → UInt16) (k : ℕ)
    (output : Bytes) : Prop where
  threshold : ∀ i, (party i).threshold.toNat = k
  injective : Function.Injective ident
  returns : ∀ i drawn, ∃ share, (party i).ownShare drawn = .ok share
  getId : ∀ i j drawn share, (party j).ownShare drawn = .ok share → (party i).getId share = ident j
  accepted : ∀ i j drawn share, (party j).ownShare drawn = .ok share →
    (party i).verifyShare share = .ok true
  assembled : ∀ i shares, (∀ share ∈ shares, ∃ j drawn, (party j).ownShare drawn = .ok share) →
    (shares.map (party i).getId).Nodup → k ≤ shares.length →
    (party i).assemble shares = .ok output

/-- A message that a party sends in its round. -/
def FromParty {ι S : Type} (party : ι → ShareRound S) (message : ShareMessage S) : Prop :=
  ∃ j drawn share, (party j).ownShare drawn = .ok share ∧ message = .share share

/-- The parties that a node has heard of. -/
def ShareRound.heard {S : Type} (P : ShareRound S) (own : UInt16) (messages : List (ShareMessage S)) :
    Finset UInt16 :=
  insert own ((messages.filterMap ShareMessage.share?).map P.getId).toFinset

namespace Committee

variable {ι S : Type} {party : ι → ShareRound S} {ident : ι → UInt16} {k : ℕ} {output : Bytes}
  {i : ι} {rng : ℕ → Drawn} {own : S} {messages : List (ShareMessage S)}

theorem heard_mono (message : ShareMessage S) :
    (party i).heard (ident i) messages ⊆ (party i).heard (ident i) (messages ++ [message]) := by
  unfold ShareRound.heard
  apply Finset.insert_subset_insert
  intro id hid
  simp only [List.mem_toFinset, List.filterMap_append, List.map_append, List.mem_append] at hid ⊢
  exact .inl hid

/-- A node holds one share of every party it has heard of. -/
theorem length_validShares (h : Committee party ident k output)
    (hown : (party i).ownShare (rng 0) = .ok own)
    {e : Execution (ShareState S) (ShareMessage S)} (hinv : ShareRound.RunInv (party i) own e)
    (hdelivered : ShareRound.deliveredShares e = messages.filterMap ShareMessage.share?)
    (hmessages : ∀ message ∈ messages, FromParty party message) :
    e.protocol.validShares.length = ((party i).heard (ident i) messages).card := by
  have hownId : (party i).getId own = ident i := h.getId i i _ own hown
  have hset : (e.protocol.validShares.map (party i).getId).toFinset
      = (party i).heard (ident i) messages := by
    ext id
    simp only [ShareRound.heard, List.mem_toFinset, Finset.mem_insert, List.mem_map,
      hinv.collected.mem, hdelivered]
    constructor
    · rintro ⟨share, rfl | ⟨-, hfind, -⟩, rfl⟩
      · exact .inl hownId
      · exact .inr ⟨share, List.mem_of_find?_eq_some hfind, rfl⟩
    · rintro (rfl | ⟨share, hshare, rfl⟩)
      · exact ⟨own, .inl rfl, hownId⟩
      by_cases hsame : (party i).getId share = (party i).getId own
      · exact ⟨own, .inl rfl, hsame.symm⟩
      · -- the first share with this id is from a party too
        obtain ⟨first, hfirst⟩ := Option.isSome_iff_exists.mp (List.find?_isSome
          (p := fun s => (party i).getId s == (party i).getId share).mpr ⟨share, hshare, by simp⟩)
        have hid : (party i).getId first = (party i).getId share := by
          simpa using List.find?_some hfirst
        obtain ⟨message, hmessage, hsome⟩ := List.mem_filterMap.mp (List.mem_of_find?_eq_some hfirst)
        obtain ⟨j, drawn, share', hj, rfl⟩ := hmessages message hmessage
        obtain rfl := Option.some.inj hsome
        refine ⟨share', .inr ⟨by rwa [hid], ?_, h.accepted i j drawn share' hj⟩, hid⟩
        rwa [hid]
  rw [← hset, List.toFinset_card_of_nodup hinv.collected.nodup, List.length_map]

/-- All shares that a node holds are from parties. -/
theorem exists_of_mem_validShares (hown : (party i).ownShare (rng 0) = .ok own)
    {e : Execution (ShareState S) (ShareMessage S)} (hinv : ShareRound.RunInv (party i) own e)
    (hdelivered : ShareRound.deliveredShares e = messages.filterMap ShareMessage.share?)
    (hmessages : ∀ message ∈ messages, FromParty party message) :
    ∀ share ∈ e.protocol.validShares, ∃ j drawn, (party j).ownShare drawn = .ok share := by
  intro share hshare
  rcases (hinv.collected.mem share).mp hshare with rfl | ⟨-, hfind, -⟩
  · exact ⟨i, _, hown⟩
  · rw [hdelivered] at hfind
    obtain ⟨message, hmessage, hsome⟩ := List.mem_filterMap.mp (List.mem_of_find?_eq_some hfind)
    obtain ⟨j, drawn, share', hj, rfl⟩ := hmessages message hmessage
    obtain rfl := Option.some.inj hsome
    exact ⟨j, drawn, hj⟩

/-- A message of a party never fails. -/
theorem exists_update (h : Committee party ident k output) {state : ShareState S}
    (hfinished : state.finished = false) {message : ShareMessage S} (hmessage : FromParty party message) :
    ∃ state', (party i).update state message = .ok state' := by
  obtain ⟨j, drawn, share, hj, rfl⟩ := hmessage
  rcases ShareRound.update_cases (P := party i) hfinished (.share share) with hok | ⟨-, hpanic⟩
  · exact hok
  · have haccept := h.accepted i j drawn share hj
    rw [hpanic share rfl] at haccept
    cases haccept

/-- With enough shares a node returns the output, and with fewer it goes on. -/
theorem advance_eq (h : Committee party ident k output) (i : ι) (rng : ℕ → Drawn)
    {e : Execution (ShareState S) (ShareMessage S)}
    (hassemble : k ≤ e.protocol.validShares.length →
      (party i).assemble e.protocol.validShares = .ok output) :
    if k ≤ e.protocol.validShares.length then
      (Execution.advance (party i).protocol rng e).status = .finished output
    else Execution.advance (party i).protocol rng e = e := by
  have hready : (party i).protocol.isReadyToFinalize e.protocol = true
      ↔ k ≤ e.protocol.validShares.length := by
    rw [← h.threshold i]
    exact decide_eq_true_iff
  have hnext : (party i).protocol.isReadyForNextRound e.protocol = true
      ↔ k ≤ e.protocol.validShares.length := hready
  split
  · rename_i hk
    have hfinalize : (party i).protocol.finalize e.protocol
        = .ok (output, { e.protocol with finished := true }) := by
      change (party i).finalize e.protocol = _
      rw [ShareRound.finalize, hassemble hk, Outcome.ok_bind]
    rw [Execution.advance, if_pos (hready.mpr hk), Execution.performFinalize_of_ok hfinalize]
  · rename_i hk
    rw [Execution.advance, if_neg (mt hready.mp hk), if_neg (mt hnext.mp hk)]

/-- Among the parties of a request, a node finishes exactly when it has got a message and has heard of
as many parties as the threshold. Otherwise it goes on. -/
theorem status_run (h : Committee party ident k output) (i : ι) (rng : ℕ → Drawn)
    (hmessages : ∀ message ∈ messages, FromParty party message) :
    ((party i).run rng messages).status
      = if messages ≠ [] ∧ k ≤ ((party i).heard (ident i) messages).card then .finished output
        else .running := by
  obtain ⟨own, hown⟩ := h.returns i (rng 0)
  suffices hstatus : (((party i).run rng messages).status = .running
        ∧ (messages = [] ∨ ((party i).heard (ident i) messages).card < k)
        ∧ ShareRound.deliveredShares ((party i).run rng messages)
          = messages.filterMap ShareMessage.share?)
      ∨ (((party i).run rng messages).status = .finished output ∧ messages ≠ []
        ∧ k ≤ ((party i).heard (ident i) messages).card) by
    rcases hstatus with ⟨hstatus, hfew, -⟩ | ⟨hstatus, hne, henough⟩
    · rw [hstatus, if_neg]
      rintro ⟨hne, henough⟩
      exact hfew.elim hne fun hlt => absurd henough (by omega)
    · rw [hstatus, if_pos ⟨hne, henough⟩]
  induction messages using List.reverseRecOn with
  | nil =>
      left
      have hstart : (party i).run rng [] = Execution.start (party i).protocol rng (.new S) := rfl
      rw [hstart, ShareRound.start_eq hown]
      exact ⟨rfl, .inl rfl, rfl⟩
  | append_singleton messages message ih =>
      have hpast : ∀ m ∈ messages, FromParty party m :=
        fun m hm => hmessages m (List.mem_append_left _ hm)
      have hmessage : FromParty party message :=
        hmessages message (List.mem_append_right _ List.mem_cons_self)
      have hrun : (party i).run rng (messages ++ [message])
          = Execution.onMessage (party i).protocol rng ((party i).run rng messages) message := by
        rw [ShareRound.run, Execution.run_append]
        rfl
      rcases ih hpast with ⟨hrunning, -, hdelivered⟩ | ⟨hfinished, -, henough⟩
      · have hinv := ShareRound.runInv_run hown messages
        obtain ⟨state, hupdate⟩ :=
          h.exists_update (i := i) (hinv.running hrunning).1 hmessage
        have hinv' := hinv.update hrunning hupdate
        have hdelivered' : ShareRound.deliveredShares
            (⟨state, ((party i).run rng messages).sent,
              ((party i).run rng messages).calls
                ++ [.update ((party i).run rng messages).protocol message], .running⟩ :
              Execution (ShareState S) (ShareMessage S))
            = (messages ++ [message]).filterMap ShareMessage.share? := by
          rw [ShareRound.deliveredShares_update, hdelivered, List.filterMap_append]
          cases message <;> rfl
        have hlength := h.length_validShares hown hinv' hdelivered' hmessages
        have hadvance := h.advance_eq i rng (e := ⟨state, _, _, .running⟩)
          fun hk => h.assembled i _ (exists_of_mem_validShares hown hinv' hdelivered' hmessages)
            hinv'.collected.nodup hk
        have hstep : Execution.onMessage (party i).protocol rng ((party i).run rng messages) message
            = Execution.advance (party i).protocol rng ⟨state, _, _, .running⟩ :=
          Execution.onMessage_of_ok hrunning hupdate
        rw [hrun, hstep]
        rw [hlength] at hadvance
        split at hadvance
        · rename_i hk
          exact .inr ⟨hadvance, by simp, hk⟩
        · rename_i hk
          rw [hadvance]
          exact .inl ⟨rfl, .inr (Nat.lt_of_not_le hk), hdelivered'⟩
      · right
        rw [hrun, Execution.onMessage, if_pos (by rw [hfinished]; simp)]
        exact ⟨hfinished, by simp, henough.trans (Finset.card_le_card (heard_mono message))⟩

/-- It is enough that the shares of the parties are of one kind, and that lists of this kind assemble to
the output. -/
theorem of_kind {T : Type} (f : T → S) (Own : ι → T → Prop) (hk : 1 ≤ k)
    (hthreshold : ∀ i, (party i).threshold.toNat = k) (hinjective : Function.Injective ident)
    (hown : ∀ j drawn, ∃ t, (party j).ownShare drawn = .ok (f t) ∧ Own j t)
    (hid : ∀ i j t, Own j t → (party i).getId (f t) = ident j)
    (haccept : ∀ i j t, Own j t → (party i).verifyShare (f t) = .ok true)
    (hassemble : ∀ i (ts : List T), ts ≠ [] → (∀ t ∈ ts, ∃ j, Own j t) →
      ((ts.map f).map (party i).getId).Nodup → k ≤ ts.length →
      (party i).assemble (ts.map f) = .ok output) :
    Committee party ident k output := by
  have hshare : ∀ j drawn share, (party j).ownShare drawn = .ok share →
      ∃ t, share = f t ∧ Own j t := by
    intro j drawn share hshare
    obtain ⟨t, ht, hj⟩ := hown j drawn
    exact ⟨t, Outcome.ok.inj (hshare.symm.trans ht), hj⟩
  refine ⟨hthreshold, hinjective, ?_, ?_, ?_, ?_⟩
  · intro i drawn
    obtain ⟨t, ht, -⟩ := hown i drawn
    exact ⟨_, ht⟩
  · intro i j drawn share hj
    obtain ⟨t, rfl, ht⟩ := hshare j drawn share hj
    exact hid i j t ht
  · intro i j drawn share hj
    obtain ⟨t, rfl, ht⟩ := hshare j drawn share hj
    exact haccept i j t ht
  · intro i shares hshares hnodup hlength
    have hlist : ∃ ts : List T, shares = ts.map f ∧ ∀ t ∈ ts, ∃ j, Own j t := by
      clear hnodup hlength
      induction shares with
      | nil => exact ⟨[], rfl, by simp⟩
      | cons share shares ih =>
          obtain ⟨j, drawn, hj⟩ := hshares share List.mem_cons_self
          obtain ⟨t, rfl, ht⟩ := hshare j drawn share hj
          obtain ⟨ts, rfl, hts⟩ := ih fun s hs => hshares s (List.mem_cons_of_mem _ hs)
          exact ⟨t :: ts, rfl, by simpa using ⟨⟨j, ht⟩, hts⟩⟩
    obtain ⟨ts, rfl, hts⟩ := hlist
    rw [List.length_map] at hlength
    apply hassemble i ts ?_ hts hnodup hlength
    rintro rfl
    simp only [List.length_nil] at hlength
    omega

end Committee

/-! ### The parties of a dealing -/

section Dealings

variable {K : Curves} {E : Primitives} {c : Curve} {k n : ℕ} {keyRng : ℕ → ℕ} {ι : Type}

/-- The parties of a dealing of Sg02 keys decrypt what was encrypted under its public key. -/
theorem committee_sg02 {keys : List (Sg02PrivateKey (K.Point c))}
    (hkeys : Sg02ThresholdCipher.generateKeys E (K.ecp c) k n keyRng = .ok keys)
    (hn : n < (K.ecp c).order) {key : ι → Sg02PrivateKey (K.Point c)} (hmem : ∀ i, key i ∈ keys)
    (hinjective : Function.Injective fun i => (key i).id)
    {msg label : Bytes} {params : Drawn} {ct : Sg02Ciphertext (K.Point c)}
    {dealt : Sg02PrivateKey (K.Point c)} (hdealt : dealt ∈ keys)
    (hct : Sg02ThresholdCipher.encrypt E (K.ecp c) msg label dealt.pubkey params = .ok ct) :
    Committee (fun i => ThresholdCipherProtocol E (.sg02 c (key i)) (.sg02 c ct))
      (fun i => (key i).id) k msg := by
  obtain ⟨hk, hkn, hmax, -⟩ := Sg02ThresholdCipher.generateKeys_eq_ok.mp hkeys
  have hparty := fun i => Sg02ThresholdCipher.exists_party_of_mem hkeys (hmem i)
  rw [(Sg02ThresholdCipher.exists_party_of_mem hkeys hdealt).2.2.2] at hct
  refine Committee.of_kind (.sg02 c)
    (fun j s => ∃ drawn, s = Sg02ThresholdCipher.partialDecrypt E (K.ecp c) ct (key j) drawn)
    hk ?_ hinjective ?_ ?_ ?_ ?_
  · intro i
    change (key i).pubkey.k.toNat = k
    rw [(hparty i).2.2.2]
    exact toNat_ofNat_of_le (hkn.trans hmax)
  · intro j drawn
    refine ⟨_, ?_, drawn, rfl⟩
    have hvalid : ThresholdCipher.verifyCiphertext E (.sg02 c ct) (.sg02 c (key j).pubkey)
        = .ok true := by
      rw [(hparty j).2.2.2]
      simp only [ThresholdCipher.verifyCiphertext, onCurve_self]
      exact congrArg Outcome.ok (Sg02ThresholdCipher.verifyCiphertext_encrypt hct)
    change (liftScheme (ThresholdCipher.verifyCiphertext E (.sg02 c ct) (.sg02 c (key j).pubkey)) >>= _)
      = _
    rw [hvalid, liftScheme_ok, Outcome.ok_bind]
    simp only [ThresholdCipher.partialDecrypt, onCurve_self]
    rfl
  · rintro i j _ ⟨drawn, rfl⟩
    rfl
  · rintro i j _ ⟨drawn, rfl⟩
    change ThresholdCipher.verifyShare E (.sg02 c _) (.sg02 c ct) (.sg02 c (key i).pubkey) = .ok true
    simp only [ThresholdCipher.verifyShare, onCurve_self]
    apply Sg02ThresholdCipher.verifyShare_partialDecrypt
    rw [(hparty i).2.2.2, (hparty j).2.2.1]
    exact Sg02ThresholdCipher.verificationKeyAt_publicKey (hparty j).1 (hparty j).2.1
  · intro i shares hne hshares hnodup hlength
    rw [List.map_map] at hnodup
    change liftScheme (ThresholdCipher.assemble E (shares.map _) _) = _
    rw [liftScheme_eq_ok, ThresholdCipher.assemble_sg02 E hne]
    apply Sg02ThresholdCipher.assemble_eq_ok hk hn hct ?_ hlength hnodup ?_
    · intro s hs
      obtain ⟨j, drawn, rfl⟩ := hshares s hs
      exact congrArg (ct.u ^ ·) (hparty j).2.2.1
    · intro s hs
      obtain ⟨j, drawn, rfl⟩ := hshares s hs
      exact (hparty j).2.1

/-- The parties of a dealing of Bz03 keys decrypt what was encrypted under its public key. -/
theorem committee_bz03 (hc : c.group.supportsPairings = true)
    {keys : List (Bz03PrivateKey (K.Point2 c) (K.Point c))}
    (hkeys : Bz03ThresholdCipher.generateKeys E (K.pairingCurve c hc) k n keyRng = .ok keys)
    (hmax : n ≤ 65535) (hn : n < (K.ecp c).order)
    {key : ι → Bz03PrivateKey (K.Point2 c) (K.Point c)} (hmem : ∀ i, key i ∈ keys)
    (hinjective : Function.Injective fun i => (key i).id)
    {msg label : Bytes} {params : Drawn} {ct : Bz03Ciphertext (K.Point2 c) (K.Point c)}
    {dealt : Bz03PrivateKey (K.Point2 c) (K.Point c)} (hdealt : dealt ∈ keys)
    (hct : Bz03ThresholdCipher.encrypt E (K.pairingCurve c hc) msg label dealt.pubkey params = .ok ct) :
    Committee (fun i => ThresholdCipherProtocol E (.bz03 c (key i)) (.bz03 c ct))
      (fun i => (key i).id) k msg := by
  obtain ⟨hk, hkn, -⟩ := Bz03ThresholdCipher.generateKeys_eq_ok.mp hkeys
  have hparty := fun i => Bz03ThresholdCipher.exists_party_of_mem hmax hkeys (hmem i)
  have hpubkey := fun i => Bz03ThresholdCipher.pubkey_of_mem hkeys (hmem i)
  rw [Bz03ThresholdCipher.pubkey_of_mem hkeys hdealt] at hct
  refine Committee.of_kind (.bz03 c)
    (fun j s => s = Bz03ThresholdCipher.partialDecrypt ct (key j)) hk ?_ hinjective ?_ ?_ ?_ ?_
  · intro i
    change (key i).pubkey.k.toNat = k
    rw [hpubkey i]
    exact toNat_ofNat_of_le (hkn.trans hmax)
  · intro j drawn
    refine ⟨_, ?_, rfl⟩
    have hvalid : ThresholdCipher.verifyCiphertext E (.bz03 c ct) (.bz03 c (key j).pubkey)
        = .ok true := by
      rw [hpubkey j]
      simp only [ThresholdCipher.verifyCiphertext, withPairing_eq hc]
      exact Bz03ThresholdCipher.verifyCiphertext_encrypt hct
    change (liftScheme (ThresholdCipher.verifyCiphertext E (.bz03 c ct) (.bz03 c (key j).pubkey)) >>= _)
      = _
    rw [hvalid, liftScheme_ok, Outcome.ok_bind]
    simp only [ThresholdCipher.partialDecrypt, onCurve_self]
    rfl
  · rintro i j _ rfl
    rfl
  · rintro i j _ rfl
    change ThresholdCipher.verifyShare E (.bz03 c _) (.bz03 c ct) (.bz03 c (key i).pubkey) = .ok true
    simp only [ThresholdCipher.verifyShare, withPairing_eq hc, onCurve_self]
    rw [hpubkey i]
    exact Bz03ThresholdCipher.verifyShare_partialDecrypt (E := E) (hparty j).1 (hparty j).2.1
      (hparty j).2.2
  · intro i shares hne hshares hnodup hlength
    rw [List.map_map] at hnodup
    change liftScheme (ThresholdCipher.assemble E (shares.map _) _) = _
    rw [liftScheme_eq_ok, ThresholdCipher.assemble_bz03 E hne]
    apply Bz03ThresholdCipher.assemble_eq_ok hk hn hct ?_ hlength hnodup ?_
    · intro s hs
      obtain ⟨j, rfl⟩ := hshares s hs
      exact congrArg (ct.u ^ ·) (hparty j).2.2
    · intro s hs
      obtain ⟨j, rfl⟩ := hshares s hs
      exact (hparty j).2.1

/-- The parties of a dealing of Bls04 keys issue the signature of the message. -/
theorem committee_bls04 (hc : c.group.supportsPairings = true)
    {keys : List (Bls04PrivateKey (K.Point c))}
    (hkeys : Bls04ThresholdSignature.generateKeys E (K.pairingCurve c hc) k n keyRng = .ok keys)
    (hmax : n ≤ 65535) (hn : n < (K.ecp c).order)
    {key : ι → Bls04PrivateKey (K.Point c)} (hmem : ∀ i, key i ∈ keys)
    (hinjective : Function.Injective fun i => (key i).id) (msg label : Bytes) :
    Committee (fun i => ThresholdSignatureProtocol E (.bls04 c (key i)) (some msg) label)
      (fun i => (key i).id) k
      ((Signature.bls04 (K := K) c ⟨Bls04ThresholdSignature.H E (K.pairingCurve c hc) msg
        ^ dealtSecret (K.ecp c).order keyRng⟩).toBytes E) := by
  obtain ⟨hk, hkn, -⟩ := Bls04ThresholdSignature.generateKeys_eq_ok.mp hkeys
  have hparty := fun i => Bls04ThresholdSignature.exists_party_of_mem hmax hkeys (hmem i)
  have hpubkey := fun i => Bls04ThresholdSignature.pubkey_of_mem hkeys (hmem i)
  refine Committee.of_kind (.bls04 c)
    (fun j s => s = Bls04ThresholdSignature.partialSign E (K.pairingCurve c hc) msg label (key j))
    hk ?_ hinjective ?_ ?_ ?_ ?_
  · intro i
    change (key i).pubkey.k.toNat = k
    rw [hpubkey i]
    exact toNat_ofNat_of_le (hkn.trans hmax)
  · intro j drawn
    refine ⟨_, ?_, rfl⟩
    change liftScheme (ThresholdSignature.partialSign E msg label (.bls04 c (key j)) drawn) = _
    rw [liftScheme_eq_ok]
    simp only [ThresholdSignature.partialSign, withPairing_eq hc]
  · rintro i j _ rfl
    rfl
  · rintro i j _ rfl
    change ThresholdSignature.verifyShare E (.bls04 c _) msg (.bls04 c (key i).pubkey) = .ok true
    simp only [ThresholdSignature.verifyShare, withPairing_eq hc, onCurve_self]
    rw [hpubkey i]
    exact Bls04ThresholdSignature.verifyShare_partialSign (hparty j).1 (hparty j).2.1 (hparty j).2.2
      label
  · intro i shares hne hshares hnodup hlength
    rw [List.map_map] at hnodup
    have hassemble : Bls04ThresholdSignature.assemble (K.pairingCurve c hc).ecp2 shares msg
        (key i).pubkey = .ok ⟨Bls04ThresholdSignature.H E (K.pairingCurve c hc) msg
          ^ dealtSecret (K.ecp c).order keyRng⟩ := by
      apply Bls04ThresholdSignature.assemble_eq_ok hk hn ?_ hlength hnodup
      · intro s hs
        obtain ⟨j, rfl⟩ := hshares s hs
        exact (hparty j).2.1
      · intro s hs
        obtain ⟨j, rfl⟩ := hshares s hs
        exact congrArg (Bls04ThresholdSignature.H E (K.pairingCurve c hc) msg ^ ·) (hparty j).2.2
    change (liftScheme (ThresholdSignature.assemble E (shares.map _) msg (.bls04 c (key i).pubkey))
      >>= fun sig => .ok (sig.toBytes E)) = _
    rw [ThresholdSignature.assemble_bls04 E hne]
    change (liftScheme (_ <$> Bls04ThresholdSignature.assemble
      (K.pairingCurve c hc).ecp2 shares msg (key i).pubkey) >>= _) = _
    rw [hassemble]
    rfl

/-- The parties of a dealing of Cks05 keys toss the coin of the name. -/
theorem committee_cks05 {keys : List (Cks05PrivateKey (K.Point c))}
    (hkeys : Cks05ThresholdCoin.generateKeys E (K.ecp c) k n keyRng = .ok keys)
    (hmax : n ≤ 65535) (hn : n < (K.ecp c).order)
    {key : ι → Cks05PrivateKey (K.Point c)} (hmem : ∀ i, key i ∈ keys)
    (hinjective : Function.Injective fun i => (key i).id) {name : Bytes} {coin : UInt8}
    (hcoin : Cks05ThresholdCoin.H2 (K.ecp c) (Cks05ThresholdCoin.H E (K.ecp c) name
      ^ dealtSecret (K.ecp c).order keyRng) = .ok coin) :
    Committee (fun i => ThresholdCoinProtocol E (.cks05 c (key i)) name) (fun i => (key i).id) k
      [coin] := by
  obtain ⟨hk, hkn, -⟩ := Cks05ThresholdCoin.generateKeys_eq_ok.mp hkeys
  have hparty := fun i => Cks05ThresholdCoin.exists_party_of_mem hmax hkeys (hmem i)
  have hpubkey := fun i => Cks05ThresholdCoin.pubkey_of_mem hkeys (hmem i)
  have hvk : ∀ i, verificationKeyAt (key i).pubkey.verificationKey (key i).id
      = .ok ((K.ecp c).generator ^ (key i).xi) := by
    intro i
    rw [hpubkey i, (hparty i).2.2]
    exact Cks05ThresholdCoin.verificationKeyAt_publicKey (hparty i).1 (hparty i).2.1
  refine Committee.of_kind (.cks05 c)
    (fun j s => ∃ drawn : ℕ → ℕ,
      Cks05ThresholdCoin.createShare E (K.ecp c) name (key j) drawn = .ok s)
    hk ?_ hinjective ?_ ?_ ?_ ?_
  · intro i
    change (key i).pubkey.k.toNat = k
    rw [hpubkey i]
    exact toNat_ofNat_of_le (hkn.trans hmax)
  · intro j drawn
    have hreturns : ∃ s, Cks05ThresholdCoin.createShare E (K.ecp c) name (key j) drawn.scalar = .ok s :=
      Cks05ThresholdCoin.createShare_returns (hvk j)
    obtain ⟨s, hs⟩ := hreturns
    refine ⟨s, ?_, drawn.scalar, hs⟩
    change liftScheme (ThresholdCoin.createShare E name (.cks05 c (key j)) drawn) = _
    rw [liftScheme_eq_ok]
    simp only [ThresholdCoin.createShare, hs, Outcome.map_ok]
  · rintro i j s ⟨drawn, hs⟩
    exact (Cks05ThresholdCoin.of_createShare_eq_ok (hvk j) hs).1
  · rintro i j s ⟨drawn, hs⟩
    change ThresholdCoin.verifyShare E (.cks05 c s) name (.cks05 c (key i).pubkey) = .ok true
    simp only [ThresholdCoin.verifyShare, onCurve_self]
    rw [hpubkey i, ← hpubkey j]
    exact Cks05ThresholdCoin.verifyShare_createShare (hvk j) hs
  · intro i shares hne hshares hnodup hlength
    rw [List.map_map] at hnodup
    have hassemble : Cks05ThresholdCoin.assemble (K.ecp c) shares = Cks05ThresholdCoin.H2 (K.ecp c)
        (Cks05ThresholdCoin.H E (K.ecp c) name ^ dealtSecret (K.ecp c).order keyRng) := by
      apply Cks05ThresholdCoin.assemble_eq hk hn ?_ hlength hnodup
      · intro s hs
        obtain ⟨j, drawn, hj⟩ := hshares s hs
        rw [(Cks05ThresholdCoin.of_createShare_eq_ok (hvk j) hj).1]
        exact (hparty j).2.1
      · intro s hs
        obtain ⟨j, drawn, hj⟩ := hshares s hs
        obtain ⟨hid, hdata, -⟩ := Cks05ThresholdCoin.of_createShare_eq_ok (hvk j) hj
        rw [hdata, hid, (hparty j).2.2]
    change (liftScheme (ThresholdCoin.assemble (shares.map _)) >>= fun coin => .ok [coin]) = _
    rw [ThresholdCoin.assemble_cks05 hne, hassemble, hcoin]
    rfl

end Dealings

end QuorumCrypt
