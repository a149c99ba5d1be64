import Tlstat.Tlsparse.Leaf

/-! The certificate chain of a TLS 1.2 Certificate message, and what of a cut message reaches the
certificate parser. -/

namespace Tlstat.Tlsparse

/-- What `parseCertificate` hands to `x509.ParseCertificate`, if it gets that far. -/
def handed (b : Bytes) : Option Bytes :=
  if b.length < 3 then none
  else
    let total := (Reader.start b).u24D
    let stop := min (total.2.off + total.1.toNat) b.length
    if total.2.off + 3 > stop then none
    else
      let clen := total.2.u24D
      match clen.2.bytes clen.1.toNat with
      | none => none
      | some ([], _) => none
      | some (der, _) => some der

/-- The report of a certificate: `HasCert` and the four fields, read from the certificate alone. -/
def Info.report (i : Info) (cert : Certificate) : Info :=
  { i with
    hasCert := true
    certSubject := cert.fields.subject
    certIssuer := cert.fields.issuer
    certSANs := cert.fields.sans
    certSigAlg := cert.fields.sigAlg }

theorem parseCertificate_handed (x509 : X509) (b : Bytes) (i : Info) :
    parseCertificate x509 b i = (((handed b).bind x509).map i.report).getD i := by
  unfold parseCertificate handed
  dsimp only
  split_ifs
  · rfl
  · rfl
  · rcases (Reader.start b).u24D.2.u24D.2.bytes (Reader.start b).u24D.2.u24D.1.toNat with
      _ | ⟨_ | ⟨d, ds⟩, q⟩
    · rfl
    · rfl
    · dsimp only
      rw [Option.bind_some]
      cases x509 (d :: ds) <;> rfl

/-- One certificate of the chain behind its length. -/
def certEntry (der : Bytes) : Bytes := put24 der.length ++ der

/-- The body of a Certificate message: the chain behind its length. -/
def encodeChain (ders : List Bytes) : Bytes :=
  put24 (ders.flatMap certEntry).length ++ ders.flatMap certEntry

theorem length_put24 (n : ℕ) : (put24 n).length = 3 := rfl

theorem handed_of_short {p : Bytes} (h : p.length < 6) : handed p = none := by
  unfold handed
  dsimp only
  split_ifs with hshort hstop
  · rfl
  · rfl
  · exfalso
    have hoff : (Reader.start p).u24D.2.off = 3 := by
      rw [Reader.u24D_of_le (r := Reader.start p) (by change 0 + 3 ≤ p.length; omega)]
      rfl
    rw [hoff] at hstop
    omega

/-- Past the two lengths, the leaf is handed over if all of it is there, and nothing otherwise. -/
theorem handed_of_lengths {total len : ℕ} {t : Bytes} (htotal : total < 16777216)
    (hle : 3 + len ≤ total) (hlen : 0 < len) : handed (put24 total ++ (put24 len ++ t)) =
      if len ≤ t.length then some (t.take len) else none := by
  have hp : (put24 total ++ (put24 len ++ t)).length = 6 + t.length := by
    simp only [List.length_append, length_put24]
    omega
  obtain ⟨hn, h₁⟩ := (Reader.At.start (put24 total ++ (put24 len ++ t))).u24D htotal
  obtain ⟨hm, h₂⟩ := h₁.u24D (by omega)
  have hoff₁ := h₁.length
  have hoff₂ := h₂.length
  simp only [List.length_append, length_put24] at hoff₁
  unfold handed
  dsimp only
  rw [if_neg (by omega), if_neg (by omega), hm]
  split_ifs with hall
  · obtain ⟨q, hq, -⟩ := Reader.At.bytes (s := t.take len) (t := t.drop len) (by
      rwa [List.take_append_drop])
    rw [List.length_take, Nat.min_eq_left hall] at hq
    rw [hq]
    obtain ⟨d, ds, hd⟩ := List.exists_cons_of_ne_nil (l := t.take len) (by
      intro hnil
      have := congrArg List.length hnil
      rw [List.length_take, List.length_nil] at this
      omega)
    rw [hd]
  · have hnone : (Reader.start (put24 total ++ (put24 len ++ t))).u24D.2.u24D.2.bytes len = none := by
      unfold Reader.bytes
      rw [dif_neg]
      rw [h₂.b]
      omega
    rw [hnone]

section Cut
variable {d p : Bytes} {ds : List Bytes}

/-- The body up to the end of its leaf. -/
def throughLeaf (d : Bytes) (ds : List Bytes) : Bytes :=
  put24 ((d :: ds).flatMap certEntry).length ++ certEntry d

theorem encodeChain_cons : encodeChain (d :: ds) = throughLeaf d ds ++ ds.flatMap certEntry := by
  unfold encodeChain throughLeaf
  rw [List.append_assoc, List.flatMap_cons]

/-- A cut of the body hands over the leaf if it goes through it, and nothing otherwise. -/
theorem handed_cut (hne : d ≠ []) (hlen : ((d :: ds).flatMap certEntry).length < 16777216)
    (hp : p <+: encodeChain (d :: ds)) :
    (throughLeaf d ds <+: p → handed p = some d) ∧ (¬throughLeaf d ds <+: p → handed p = none) := by
  have hpos : 0 < d.length := List.length_pos_iff.mpr hne
  have hthrough : (throughLeaf d ds).length = 6 + d.length := by
    simp only [throughLeaf, certEntry, List.length_append, length_put24]
    omega
  have hreach : throughLeaf d ds <+: p ↔ 6 + d.length ≤ p.length := by
    rw [← hthrough]
    constructor
    · exact List.IsPrefix.length_le
    · intro hle
      exact List.prefix_of_prefix_length_le (encodeChain_cons ▸ List.prefix_append _ _) hp hle
  have htotal : ((d :: ds).flatMap certEntry).length =
      3 + d.length + (ds.flatMap certEntry).length := by
    simp only [List.flatMap_cons, certEntry, List.length_append, length_put24]
  rcases Nat.lt_or_ge p.length 6 with hshort | hlong
  · have hnone := handed_of_short hshort
    exact ⟨fun h => absurd (hreach.mp h) (by omega), fun _ => hnone⟩
  · -- both lengths are there, and what follows them is a cut of the leaf and the rest of the chain
    have hbody : encodeChain (d :: ds) =
        (put24 ((d :: ds).flatMap certEntry).length ++ put24 d.length) ++
          (d ++ ds.flatMap certEntry) := by
      rw [encodeChain_cons]
      unfold throughLeaf certEntry
      simp only [List.append_assoc]
    obtain ⟨t, rfl⟩ : put24 ((d :: ds).flatMap certEntry).length ++ put24 d.length <+: p :=
      List.prefix_of_prefix_length_le (hbody ▸ List.prefix_append _ _) hp hlong
    rw [hbody, List.prefix_append_right_inj] at hp
    rw [hreach, List.append_assoc, handed_of_lengths hlen (by omega) hpos]
    have hn : (put24 ((d :: ds).flatMap certEntry).length ++ (put24 d.length ++ t)).length =
        6 + t.length := by
      simp only [List.length_append, length_put24]
      omega
    rw [hn]
    constructor
    · intro hle
      have hd : d <+: t :=
        List.prefix_of_prefix_length_le (List.prefix_append _ _) hp (by omega)
      rw [if_pos (by omega), ← List.prefix_iff_eq_take.mp hd]
    · intro hlt
      exact if_neg (by omega)

/-- **A cut Certificate message hands the whole leaf to the certificate parser or nothing, the leaf
exactly when the cut goes through it; without a parsed leaf the report stays as it was, and with one
it is read from that certificate alone.** -/
theorem leaf_extraction (x509 : X509) (i : Info) (hne : d ≠ [])
    (hlen : ((d :: ds).flatMap certEntry).length < 16777216) (hp : p <+: encodeChain (d :: ds)) :
    (handed p = none ∨ handed p = some d) ∧
    (handed p = some d ↔ throughLeaf d ds <+: p) ∧
    ((handed p).bind x509 = none → parseCertificate x509 p i = i) ∧
    ∀ cert, (handed p).bind x509 = some cert → parseCertificate x509 p i = i.report cert := by
  obtain ⟨hreached, hshort⟩ := handed_cut hne hlen hp
  refine ⟨?_, ⟨fun hd => ?_, hreached⟩, fun hnone => ?_, fun cert hcert => ?_⟩
  · by_cases h : throughLeaf d ds <+: p
    · exact .inr (hreached h)
    · exact .inl (hshort h)
  · by_contra h
    rw [hshort h] at hd
    cases hd
  · rw [parseCertificate_handed, hnone]
    rfl
  · rw [parseCertificate_handed, hcert]
    rfl

def smallCert : Certificate := ⟨[97], [], [98], [], []⟩

/-- A chain of two, cut one byte before the end of its leaf and right at it. -/
theorem leaf_cut_twice :
    parseCertificate (fun _ => some smallCert) [0, 0, 9, 0, 0, 2, 48] {} = {} ∧
    (parseCertificate (fun _ => some smallCert) [0, 0, 9, 0, 0, 2, 48, 49] {}).certSubject = [97] := by
  have hne : [48, 49] ≠ ([] : Bytes) := by decide
  have hlen : (([48, 49] :: [[50]]).flatMap certEntry).length < 16777216 := by decide
  constructor
  · have hp : [0, 0, 9, 0, 0, 2, 48] <+: encodeChain ([48, 49] :: [[50]]) := by decide
    exact (leaf_extraction _ {} hne hlen hp).2.2.1 (by decide)
  · have hp : [0, 0, 9, 0, 0, 2, 48, 49] <+: encodeChain ([48, 49] :: [[50]]) := by decide
    have hcut := (leaf_extraction (fun _ => some smallCert) {} hne hlen hp).2.2.2 smallCert (by decide)
    rw [hcut]
    rfl

end Cut

end Tlstat.Tlsparse
