import Tlstat.Tlsparse.Leaf

/-! The version that goes with a suite. A suite of TLS 1.3 raises the version at the end of a
ServerHello; a ServerHello that stops before its compression method does not get there, and leaves
the suite with the version it opened with. -/

namespace Tlstat.Tlsparse

/-- "TLS 1.3-only" -/
def IsTLS13Suite (cs : UInt16) : Prop := 0x1301 ≤ cs ∧ cs ≤ 0x1305

/-- A TLS 1.3-only suite implies TLS 1.3, in what a parse of `buf` reports. -/
def SuiteImpliesVersion (x509 : X509) (buf : Bytes) : Prop :=
  IsTLS13Suite (parse x509 buf {}).cipherSuite → 0x0304 ≤ (parse x509 buf {}).negVersion

/-- The version a ServerHello opens with, and how far it goes behind it. -/
def helloOf (m : UInt8 × Bytes) : Option (UInt16 × Option (UInt16 × Option (List (UInt16 × Bytes)))) :=
  if m.1 = hsServerHello then (Reader.start m.2).u16.map fun q => (q.1, serverWalk q.2) else none

def suiteOf (m : UInt8 × Bytes) : Option UInt16 := (helloOf m).bind fun h => h.2.map Prod.fst

def clientVersionOf (m : UInt8 × Bytes) : Option UInt16 :=
  if m.1 = hsClientHello then (Reader.start m.2).u16.map Prod.fst else none

/-- The version, or the first one that a ClientHello of `ms` has in place of a zero. -/
def fillVersion (ver : UInt16) (ms : List (UInt8 × Bytes)) : UInt16 :=
  ((ver :: ms.filterMap clientVersionOf).find? (· ≠ 0)).getD 0

/-- If the last ServerHello stops before its compression method, and the last suite seen by then is
one of TLS 1.3, then the version it opens with is that of TLS 1.3 too. -/
def NoStaleVersion (ms : List (UInt8 × Bytes)) : Prop := ∀ pre m post ver w cs,
  ms = pre ++ m :: post → helloOf m = some (ver, w) → (∀ m' ∈ post, helloOf m' = none) →
  w.bind Prod.snd = none → ((pre ++ [m]).filterMap suiteOf).getLast? = some cs →
  IsTLS13Suite cs → 0x0304 ≤ fillVersion ver post

/-! ### One message -/

section Message
variable {x509 : X509} {m : UInt8 × Bytes} {i : Info} {ver : UInt16}
  {w : Option (UInt16 × Option (List (UInt16 × Bytes)))}

theorem foldl_handle_cipherSuite (server : Bool) (es : List (UInt16 × Bytes)) (i : Info) :
    (es.foldl (handle server) i).cipherSuite = i.cipherSuite := by
  refine Base.foldl_frame (handle server) (g := Info.cipherSuite) (fun i e => ?_) i es
  cases server with
  | false => rw [handle_client]
  | true => rw [handle_server]

theorem foldl_handle_client_negVersion (es : List (UInt16 × Bytes)) (i : Info) :
    (es.foldl (handle false) i).negVersion = i.negVersion := by
  refine Base.foldl_frame (handle false) (g := Info.negVersion) (fun i e => ?_) i es
  rw [handle_client]

/-- What a message that is no ServerHello with a version does to the suite and the version. -/
theorem parseMessage_of_no_hello (h : helloOf m = none) :
    (parseMessage x509 m.1 m.2 i).cipherSuite = i.cipherSuite ∧
    (parseMessage x509 m.1 m.2 i).negVersion =
      if i.negVersion = 0 then (clientVersionOf m).getD 0 else i.negVersion := by
  obtain ⟨t, b⟩ := m
  have hkeep : ∀ v : UInt16, v = if v = 0 then (none : Option UInt16).getD 0 else v := by
    intro v
    split_ifs with hv
    · exact hv
    · rfl
  unfold parseMessage
  dsimp only
  by_cases hclient : t = hsClientHello
  · rw [if_pos hclient, clientVersionOf, if_pos hclient]
    rcases hu : (Reader.start b).u16 with _ | ⟨v, r⟩
    · rw [parseClientHello_none hu]
      exact ⟨rfl, hkeep _⟩
    · rw [parseClientHello_walk hu, clientFold, foldl_handle_cipherSuite,
        foldl_handle_client_negVersion]
      exact ⟨rfl, rfl⟩
  · rw [if_neg hclient, clientVersionOf, if_neg hclient]
    by_cases hserver : t = hsServerHello
    · rw [helloOf, if_pos hserver, Option.map_eq_none_iff] at h
      rw [if_pos hserver, parseServerHello_none h]
      exact ⟨rfl, hkeep _⟩
    · rw [if_neg hserver]
      by_cases hcert : t = hsCertificate
      · rw [if_pos hcert, parseCertificate_eq]
        rcases certificateEffect_cases x509 b with hc | ⟨cert, hc⟩ <;> rw [hc] <;>
          exact ⟨rfl, hkeep _⟩
      · rw [if_neg hcert]
        exact ⟨rfl, hkeep _⟩

theorem parseMessage_of_hello (h : helloOf m = some (ver, w)) :
    parseMessage x509 m.1 m.2 i = serverFold ver w i := by
  obtain ⟨t, b⟩ := m
  unfold helloOf at h
  split_ifs at h with hserver
  obtain ⟨⟨v, r⟩, hu, hvw⟩ := Option.map_eq_some_iff.mp h
  obtain ⟨rfl, rfl⟩ := Prod.mk.inj hvw
  have hne : t ≠ hsClientHello := by
    rw [show t = hsServerHello from hserver]
    decide
  unfold parseMessage
  rw [if_neg hne, if_pos hserver]
  exact parseServerHello_walk hu i

theorem parseMessage_cipherSuite :
    (parseMessage x509 m.1 m.2 i).cipherSuite = (suiteOf m).getD i.cipherSuite := by
  unfold suiteOf
  rcases hh : helloOf m with _ | ⟨ver, w⟩
  · exact (parseMessage_of_no_hello hh).1
  · rw [parseMessage_of_hello hh]
    rcases w with _ | ⟨cs, _ | es⟩
    · rfl
    · rfl
    · rw [serverFold, upgrade_negVersion]
      exact foldl_handle_cipherSuite true es _

/-- A ServerHello that stops short leaves its opening version. -/
theorem serverFold_short (h : w.bind Prod.snd = none) : (serverFold ver w i).negVersion = ver := by
  rcases w with _ | ⟨cs, _ | es⟩
  · rfl
  · rfl
  · cases h

/-- One that goes on to its extensions has its version raised. -/
theorem serverFold_through {cs : UInt16} {es : List (UInt16 × Bytes)} (hcs : IsTLS13Suite cs) :
    0x0304 ≤ (serverFold ver (some (cs, some es)) i).negVersion := by
  rw [serverFold, upgrade_negVersion]
  dsimp only
  split_ifs with hlt
  · exact UInt16.le_refl _
  · exact UInt16.not_lt.mp fun hlt' => hlt ⟨hlt', hcs⟩

end Message

/-! ### A stream -/

section Stream
variable {x509 : X509} {ms : List (UInt8 × Bytes)} {i : Info}

/-- What the messages make of a report. -/
def parseMessages (x509 : X509) (ms : List (UInt8 × Bytes)) (i : Info) : Info :=
  ms.foldl (fun i m => parseMessage x509 m.1 m.2 i) i

theorem parseMessages_cipherSuite :
    (parseMessages x509 ms i).cipherSuite = ((ms.filterMap suiteOf).getLast?).getD i.cipherSuite :=
  Base.foldl_last_some _ (fun i m => parseMessage_cipherSuite (m := m) (i := i)) i ms

theorem parseMessages_negVersion (h : ∀ m ∈ ms, helloOf m = none) :
    (parseMessages x509 ms i).negVersion = fillVersion i.negVersion ms := by
  induction ms generalizing i with
  | nil =>
    unfold fillVersion
    by_cases hi : i.negVersion = 0 <;> simp [parseMessages, hi]
  | cons m ms ih =>
    have hfirst : (parseMessage x509 m.1 m.2 i).negVersion =
        if i.negVersion = 0 then (clientVersionOf m).getD 0 else i.negVersion :=
      (parseMessage_of_no_hello (h m List.mem_cons_self)).2
    have hrest := ih (i := parseMessage x509 m.1 m.2 i) fun m' hm' => h m' (List.mem_cons_of_mem m hm')
    change (parseMessages x509 ms (parseMessage x509 m.1 m.2 i)).negVersion = _
    rw [hrest, hfirst]
    unfold fillVersion
    by_cases hi : i.negVersion = 0
    · rw [if_pos hi, hi]
      cases hm : clientVersionOf m with
      | none => rw [List.filterMap_cons_none hm]; rfl
      | some v =>
        rw [List.filterMap_cons_some hm, Option.getD_some]
        simp
    · rw [if_neg hi]
      simp [hi]

/-- Either no ServerHello of the stream shows a version, or there is a last one that does. -/
theorem no_hello_or_last (ms : List (UInt8 × Bytes)) : (∀ m ∈ ms, helloOf m = none) ∨
    ∃ pre m post h, ms = pre ++ m :: post ∧ helloOf m = some h ∧ ∀ m' ∈ post, helloOf m' = none := by
  induction ms with
  | nil => exact .inl (by simp)
  | cons m ms ih =>
    rcases ih with hnone | ⟨pre, m', post, h, rfl, hm', hpost⟩
    · cases hm : helloOf m with
      | none => exact .inl (List.forall_mem_cons.mpr ⟨hm, hnone⟩)
      | some h => exact .inr ⟨[], m, ms, h, rfl, hm, hnone⟩
    · exact .inr ⟨m :: pre, m', post, h, rfl, hm', hpost⟩

theorem suites_eq_nil (h : ∀ m ∈ ms, helloOf m = none) : ms.filterMap suiteOf = [] := by
  rw [List.filterMap_eq_nil_iff]
  intro m hm
  rw [suiteOf, h m hm]
  rfl

theorem suites_behind {pre post : List (UInt8 × Bytes)} {m : UInt8 × Bytes}
    (hpost : ∀ m' ∈ post, helloOf m' = none) :
    (pre ++ m :: post).filterMap suiteOf = (pre ++ [m]).filterMap suiteOf := by
  rw [List.append_cons, List.filterMap_append, suites_eq_nil hpost, List.append_nil]

theorem suites_last {pre : List (UInt8 × Bytes)} {m : UInt8 × Bytes} {ver suite : UInt16}
    {es : Option (List (UInt16 × Bytes))} (hm : helloOf m = some (ver, some (suite, es))) :
    ((pre ++ [m]).filterMap suiteOf).getLast? = some suite := by
  have hsuite : suiteOf m = some suite := by
    rw [suiteOf, hm]
    rfl
  rw [List.filterMap_append, List.filterMap_cons_some hsuite, List.filterMap_nil,
    List.getLast?_concat]

theorem negVersion_after {pre post : List (UInt8 × Bytes)} {m : UInt8 × Bytes} {ver : UInt16}
    {w : Option (UInt16 × Option (List (UInt16 × Bytes)))} (hm : helloOf m = some (ver, w))
    (hpost : ∀ m' ∈ post, helloOf m' = none) :
    (parseMessages x509 (pre ++ m :: post) i).negVersion =
      fillVersion (serverFold ver w (parseMessages x509 pre i)).negVersion post := by
  have hsplit : parseMessages x509 (pre ++ m :: post) i =
      parseMessages x509 post (parseMessage x509 m.1 m.2 (parseMessages x509 pre i)) :=
    List.foldl_append
  rw [hsplit, parseMessages_negVersion hpost, parseMessage_of_hello hm]

theorem fillVersion_of_ne {ver : UInt16} (h : ver ≠ 0) (ms : List (UInt8 × Bytes)) :
    fillVersion ver ms = ver := by
  unfold fillVersion
  rw [List.find?_cons_of_pos (by simpa using h), Option.getD_some]

theorem le_fillVersion {ver : UInt16} (h : 0x0304 ≤ ver) (ms : List (UInt8 × Bytes)) :
    0x0304 ≤ fillVersion ver ms := by
  rw [fillVersion_of_ne]
  · exact h
  · intro hzero
    rw [hzero] at h
    exact absurd h (by decide)

theorem not_isTLS13Suite_zero : ¬IsTLS13Suite 0 := fun h => absurd h.1 (by decide)

/-- **A parse that reports a TLS 1.3-only suite reports TLS 1.3 exactly when no ServerHello that
stops before its compression method is left to set the version.** -/
theorem suiteImpliesVersion_iff (x509 : X509) (buf : Bytes) :
    SuiteImpliesVersion x509 buf ↔ NoStaleVersion (handshake buf) := by
  have hparse : parse x509 buf {} = parseMessages x509 (handshake buf) {} := parse_foldl x509 buf {}
  unfold SuiteImpliesVersion
  rw [hparse, parseMessages_cipherSuite]
  constructor
  · intro h pre m post ver w cs hms hm hpost hshort hlast hcs
    rw [hms, suites_behind hpost, hlast, negVersion_after hm hpost, serverFold_short hshort] at h
    exact h hcs
  · intro h
    rcases no_hello_or_last (handshake buf) with hnone | ⟨pre, m, post, ⟨ver, w⟩, hms, hm, hpost⟩
    · rw [suites_eq_nil hnone]
      intro hcs
      exact absurd hcs not_isTLS13Suite_zero
    · rw [hms, suites_behind hpost, negVersion_after hm hpost]
      intro hcs
      rcases w with _ | ⟨suite, _ | es⟩
      · cases hlast : ((pre ++ [m]).filterMap suiteOf).getLast? with
        | none =>
          rw [hlast] at hcs
          exact absurd hcs not_isTLS13Suite_zero
        | some cs =>
          rw [hlast] at hcs
          exact h pre m post ver none cs hms hm hpost rfl hlast hcs
      · rw [suites_last hm] at hcs
        exact h pre m post ver _ suite hms hm hpost rfl (suites_last hm) hcs
      · rw [suites_last hm] at hcs
        have hraised : 0x0304 ≤ (serverFold ver (some (suite, some es))
          (parseMessages x509 pre {})).negVersion := serverFold_through hcs
        exact le_fillVersion hraised post

/-- A ServerHello of TLS 1.3 whose capture ends with its suite. -/
def cutHello : Bytes :=
  [22, 3, 3, 0, 41, hsServerHello, 0, 0, 90, 3, 3] ++ List.replicate 32 7 ++ [0, 0x13, 0x01]

theorem cut_after_suite : ¬SuiteImpliesVersion (fun _ => none) cutHello := by
  intro h
  have hreport : (parse (fun _ => none) cutHello {}).cipherSuite = 0x1301 ∧
      (parse (fun _ => none) cutHello {}).negVersion = 0x0303 := by decide +kernel
  unfold SuiteImpliesVersion at h
  rw [hreport.1, hreport.2] at h
  exact absurd (h ⟨by decide, by decide⟩) (by decide)

end Stream

end Tlstat.Tlsparse
