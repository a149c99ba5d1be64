import Tlstat.Tlsparse.Growing
import Tlstat.Tlsparse.Hello

/-! A hello whose capture stops early. The decoders run on whatever part of the message arrived,
the last extension included, and show only what the whole message says. -/

namespace Tlstat.Tlsparse
open Base

/-! ### Lists cut short -/

theorem isPrefix_parseALPNLoop (stop : ℕ) (r : Reader) (out : List Bytes) :
    out <+: parseALPNLoop stop r out := by
  fun_induction parseALPNLoop stop r out with
  | case1 r out h l => exact List.prefix_rfl
  | case2 r out h l name r' hb =>
    rename_i ih
    exact (List.prefix_append ..).trans ih
  | case3 r out h => exact List.prefix_rfl

theorem parseALPNLoop_cut (stop : ℕ) {r' r : Reader} (hr : Reader.Le r' r) (out : List Bytes) :
    parseALPNLoop stop r' out <+: parseALPNLoop stop r out := by
  fun_induction parseALPNLoop stop r' out generalizing r with
  | case1 r' out h l => exact isPrefix_parseALPNLoop ..
  | case2 r' out h l name q' hb =>
    rename_i ih
    obtain ⟨hl, hle⟩ := hr.u8D h.2
    obtain ⟨q, hq, hqle⟩ := hle.bytes hb
    rw [hl] at hq
    have hlt : r.off + 1 ≤ r.b.length := hr.bound h.2
    rw [parseALPNLoop_step ⟨hr.off ▸ h.1, hlt⟩ hq]
    exact ih hqle
  | case3 r' out h => exact isPrefix_parseALPNLoop ..

theorem isPrefix_parseU16Loop (stop : ℕ) (r : Reader) (out : List UInt16) :
    out <+: parseU16Loop stop r out := by
  fun_induction parseU16Loop stop r out with
  | case1 r out h v ih => exact (List.prefix_append ..).trans ih
  | case2 r out h => exact List.prefix_rfl

theorem parseU16Loop_cut (stop : ℕ) {r' r : Reader} (hr : Reader.Le r' r) (out : List UInt16) :
    parseU16Loop stop r' out <+: parseU16Loop stop r out := by
  fun_induction parseU16Loop stop r' out generalizing r with
  | case1 r' out h v =>
    rename_i ih
    obtain ⟨hv, hle⟩ := hr.u16D h.2
    rw [parseU16Loop.eq_def stop r, dif_pos ⟨hr.off ▸ h.1, hr.bound h.2⟩]
    dsimp only
    rw [← hv]
    exact ih hle
  | case2 r' out h => exact isPrefix_parseU16Loop ..

/-- A list behind its length, read by a loop that a shorter reader stops earlier. -/
theorem cut_list {β : Type} {loop : ℕ → Reader → List β}
    (hloop : ∀ stop {r' r : Reader}, Reader.Le r' r → loop stop r' <+: loop stop r) {d' d : Bytes}
    (h : d' <+: d) :
    (if d'.length < 2 then [] else
      let l := (Reader.start d').u16D
      loop (l.2.off + l.1.toNat) l.2) <+:
    (if d.length < 2 then [] else
      let l := (Reader.start d).u16D
      loop (l.2.off + l.1.toNat) l.2) := by
  by_cases hd : d'.length < 2
  · rw [if_pos hd]
    exact List.nil_prefix
  · have hlen := h.length_le
    obtain ⟨hl, hle⟩ := (Reader.Le.start h).u16D (by simp only [Reader.start]; omega)
    rw [if_neg hd, if_neg (by omega)]
    dsimp only
    rw [hl, hle.off]
    exact hloop _ hle

theorem parseALPN_cut {d' d : Bytes} (h : d' <+: d) : parseALPN d' <+: parseALPN d :=
  cut_list (fun stop _ _ hr => parseALPNLoop_cut stop hr []) h

theorem parseU16List_cut {d' d : Bytes} (h : d' <+: d) : parseU16List d' <+: parseU16List d :=
  cut_list (fun stop _ _ hr => parseU16Loop_cut stop hr []) h

/-! ### Extensions cut short -/

section Cut
variable {x y : UInt16 × Bytes} {xs ys : List (UInt16 × Bytes)}

theorem sniOf_cut (h : Cut x y) :
    sniOf x = none ∨ ∃ a b, sniOf x = some a ∧ sniOf y = some b ∧ a = b := by
  unfold sniOf
  rw [h.1]
  by_cases ht : y.1 = 0
  · rw [if_pos ht, if_pos ht]
    rcases parseSNI_cut h.2 with hs | hs
    · exact .inl (if_pos hs)
    · rw [hs]
      by_cases hne : parseSNI y.2 = []
      · exact .inl (if_pos hne)
      · exact .inr ⟨_, _, if_neg hne, if_neg hne, rfl⟩
  · exact .inl (if_neg ht)

theorem sigsOf_cut (h : Cut x y) :
    sigsOf x = none ∨ ∃ a b, sigsOf x = some a ∧ sigsOf y = some b ∧ a <+: b := by
  unfold sigsOf
  rw [h.1]
  by_cases ht : y.1 = 13
  · exact .inr ⟨_, _, if_pos ht, if_pos ht, parseU16List_cut h.2⟩
  · exact .inl (if_neg ht)

theorem alpnOf_cut (h : Cut x y) :
    alpnOf x = none ∨ ∃ a b, alpnOf x = some a ∧ alpnOf y = some b ∧ a <+: b := by
  unfold alpnOf
  rw [h.1]
  by_cases ht : y.1 = 16
  · exact .inr ⟨_, _, if_pos ht, if_pos ht, parseALPN_cut h.2⟩
  · exact .inl (if_neg ht)

theorem wordOf_cut (t : UInt16) (h : Cut x y) :
    wordOf t x = none ∨ ∃ a b, wordOf t x = some a ∧ wordOf t y = some b ∧ a = b := by
  obtain ⟨t', d'⟩ := x
  obtain ⟨t'', d⟩ := y
  obtain ⟨ht, e, he⟩ := h
  obtain rfl : t' = t'' := ht
  obtain rfl : d' ++ e = d := he
  unfold wordOf
  dsimp only
  by_cases ht : t' = t
  · rw [if_pos ht, if_pos ht]
    rcases d' with _ | ⟨a, _ | ⟨b, d'⟩⟩
    · exact .inl rfl
    · exact .inl rfl
    · exact .inr ⟨_, _, rfl, rfl, rfl⟩
  · exact .inl (if_neg ht)

theorem types_isPrefix (h : Truncates Cut xs ys) : xs.map (·.1) <+: ys.map (·.1) := by
  induction h with
  | nil ys => exact List.nil_prefix
  | last h ys =>
    rw [List.map_singleton, List.map_cons, h.1]
    exact List.prefix_append [_] _
  | cons x _ ih =>
    rw [List.map_cons, List.map_cons]
    exact (List.prefix_cons_inj _).mpr ih

theorem types_nodup (h : Truncates Cut xs ys) (hy : (ys.map (·.1)).Nodup) :
    (xs.map (·.1)).Nodup := hy.sublist (types_isPrefix h).sublist

end Cut

theorem getD_eq_or {α : Type*} {x y : Option α} (d : α)
    (h : x = none ∨ ∃ a b, x = some a ∧ y = some b ∧ a = b) :
    x.getD d = d ∨ x.getD d = y.getD d := by
  rcases h with rfl | ⟨a, b, rfl, rfl, rfl⟩
  · exact .inl rfl
  · exact .inr rfl

theorem getD_isPrefix {α : Type*} {x y : Option (List α)}
    (h : x = none ∨ ∃ a b, x = some a ∧ y = some b ∧ a <+: b) : x.getD [] <+: y.getD [] := by
  rcases h with rfl | ⟨a, b, rfl, rfl, hab⟩
  · exact List.nil_prefix
  · exact hab

/-! ### Hellos cut short -/

inductive Hello
  | client (h : ClientHello)
  | server (h : ServerHello)

namespace Hello

def mtype : Hello → UInt8
  | client _ => hsClientHello
  | server _ => hsServerHello

def body : Hello → Bytes
  | client h => h.encode
  | server h => h.encode

def version : Hello → UInt16
  | client h => h.version
  | server h => h.version

/-- The hello selects a suite that only TLS 1.3 has. -/
def Only13 : Hello → Prop
  | client _ => False
  | server h => 0x1301 ≤ h.cipherSuite ∧ h.cipherSuite ≤ 0x1305

theorem body_lt (h : Hello) : h.body.length < 2 ^ 24 := by
  cases h with
  | client h => exact h.encode_lt
  | server h => exact h.encode_lt

def message (h : Hello) : Message := ⟨h.mtype, h.body, h.body_lt⟩

theorem messages_wire (h : Hello) {rs : List Record}
    (hcut : rs.flatMap Record.payload = h.message.encode) :
    messages (collectHandshake (rs.flatMap Record.encode)) = [(h.mtype, h.body)] := by
  have hmsg : rs.flatMap Record.payload = [h.message].flatMap Message.encode := by
    rw [hcut, List.flatMap_singleton]
  have hrec := @messages_records _ _ [] hmsg (.inl (by decide))
  rwa [List.append_nil] at hrec

/-- What is shown of the hello, `part`, beside what all of it shows, `whole`. -/
structure Within (h : Hello) (part whole : Info) : Prop where
  sni : part.sni = [] ∨ part.sni = whole.sni
  alpn : part.alpn <+: whole.alpn
  offeredSigs : part.offeredSigs <+: whole.offeredSigs
  clientVersion : part.clientVersion = 0 ∨ part.clientVersion = whole.clientVersion
  cipherSuite : part.cipherSuite = 0 ∨ part.cipherSuite = whole.cipherSuite
  group : part.group = 0 ∨ part.group = whole.group
  negVersion : part.negVersion = 0 ∨ part.negVersion = h.version ∨
    part.negVersion = whole.negVersion ∨ part.negVersion = 0x0304 ∧ h.Only13
  hasClientHello : part.hasClientHello = true → whole.hasClientHello = true
  hasServerHello : part.hasServerHello = true → whole.hasServerHello = true

theorem within_empty (h : Hello) (whole : Info) : h.Within {} whole :=
  ⟨.inl rfl, List.nil_prefix, List.nil_prefix, .inl rfl, .inl rfl, .inl rfl, .inl rfl, nofun, nofun⟩

end Hello

theorem parseClientHello_none {b : Bytes} (h : (Reader.start b).u16 = none) (i : Info) :
    parseClientHello b i = i := by
  unfold parseClientHello
  rw [h]

theorem parseServerHello_none {b : Bytes} (h : (Reader.start b).u16 = none) (i : Info) :
    parseServerHello b i = i := by
  unfold parseServerHello
  rw [h]

theorem within_client (h : ClientHello) {b : Bytes} (hb : b <+: h.encode) :
    (Hello.client h).Within (parseClientHello b {}) (parseClientHello h.encode {}) := by
  rcases hu : (Reader.start b).u16 with _ | ⟨ver, r'⟩
  · rw [parseClientHello_none hu]
    exact Hello.within_empty ..
  obtain ⟨r, hr, hle⟩ := (Reader.Le.start hb).u16 hu
  obtain ⟨r₀, hr₀, hwalk⟩ := h.walk_encode
  obtain ⟨rfl, rfl⟩ : h.version = ver ∧ r₀ = r := by
    simpa only [hr₀, Option.some.injEq, Prod.mk.injEq] using hr
  have htr := clientWalk_truncates hle
  rw [hwalk] at htr
  rw [parseClientHello_walk hu, parseClientHello_walk hr₀, hwalk, clientFold, clientFold,
    foldl_handle_client h.items_nodup, foldl_handle_client (types_nodup htr h.items_nodup)]
  exact {
    sni := getD_eq_or [] (htr.findSome? (fun _ => rfl) fun _ _ h => sniOf_cut h)
    alpn := getD_isPrefix (htr.findSome? (fun _ => List.prefix_rfl) fun _ _ h => alpnOf_cut h)
    offeredSigs := getD_isPrefix (htr.findSome? (fun _ => List.prefix_rfl) fun _ _ h => sigsOf_cut h)
    clientVersion := .inr rfl
    cipherSuite := .inr rfl
    group := .inr rfl
    negVersion := .inr (.inl rfl)
    hasClientHello := fun _ => rfl
    hasServerHello := fun h => absurd h Bool.false_ne_true }

/-- A server hello cut before its extensions. -/
theorem ServerHello.within_bare (h : ServerHello) {cs : UInt16} {whole : Info}
    (hcs : cs = 0 ∨ cs = whole.cipherSuite) (hflag : whole.hasServerHello = true) :
    (Hello.server h).Within { negVersion := h.version, cipherSuite := cs, hasServerHello := true }
      whole where
  sni := .inl rfl
  alpn := List.nil_prefix
  offeredSigs := List.nil_prefix
  clientVersion := .inl rfl
  cipherSuite := hcs
  group := .inl rfl
  negVersion := .inr (.inl rfl)
  hasClientHello := fun h => absurd h Bool.false_ne_true
  hasServerHello := fun _ => hflag

theorem within_server (h : ServerHello) {b : Bytes} (hb : b <+: h.encode) :
    (Hello.server h).Within (parseServerHello b {}) (parseServerHello h.encode {}) := by
  rcases hu : (Reader.start b).u16 with _ | ⟨ver, r'⟩
  · rw [parseServerHello_none hu]
    exact Hello.within_empty ..
  obtain ⟨r, hr, hle⟩ := (Reader.Le.start hb).u16 hu
  obtain ⟨r₀, hr₀, hwalk⟩ := h.walk_encode
  obtain ⟨rfl, rfl⟩ : h.version = ver ∧ r₀ = r := by
    simpa only [hr₀, Option.some.injEq, Prod.mk.injEq] using hr
  have hcut := serverWalk_cut hle
  rw [hwalk] at hcut
  rw [parseServerHello_walk hu, parseServerHello_walk hr₀, hwalk, serverFold.eq_def _ (some _)]
  dsimp only
  rw [foldl_handle_server h.items_nodup, upgrade_negVersion]
  -- the cut is before the suite, between the suite and the extensions, or behind both
  rcases hcut with hw | ⟨cs, w, hw, heq⟩ | ⟨cs, es', es, hw, heq, htr⟩
  · rw [hw]
    exact h.within_bare (.inl rfl) rfl
  · obtain rfl : h.cipherSuite = cs := congrArg Prod.fst (Option.some.inj heq)
    rw [hw]
    exact h.within_bare (.inr rfl) rfl
  · obtain ⟨rfl, rfl⟩ : h.cipherSuite = cs ∧ h.items = es := by
      simpa only [Option.some.injEq, Prod.mk.injEq] using heq
    rw [hw, serverFold]
    dsimp only
    rw [foldl_handle_server (types_nodup htr h.items_nodup), upgrade_negVersion]
    dsimp only
    have hver := getD_eq_or h.version (htr.findSome? (fun _ => rfl) fun _ _ h => wordOf_cut 43 h)
    refine {
      sni := .inl rfl
      alpn := getD_isPrefix (htr.findSome? (fun _ => List.prefix_rfl) fun _ _ h => alpnOf_cut h)
      offeredSigs := List.nil_prefix
      clientVersion := .inl rfl
      cipherSuite := .inr rfl
      group := getD_eq_or 0 (htr.findSome? (fun _ => rfl) fun _ _ h => wordOf_cut 51 h)
      negVersion := ?_
      hasClientHello := fun h => absurd h Bool.false_ne_true
      hasServerHello := fun _ => rfl }
    dsimp only
    rcases hver with hver | hver
    · -- the version extension is not there yet, so the legacy version stands or is raised
      rw [hver]
      by_cases hraise : h.version < 0x0304 ∧ 0x1301 ≤ h.cipherSuite ∧ h.cipherSuite ≤ 0x1305
      · rw [if_pos hraise]
        exact .inr (.inr (.inr ⟨rfl, hraise.2⟩))
      · rw [if_neg hraise]
        exact .inr (.inl rfl)
    · rw [hver]
      exact .inr (.inr (.inl rfl))

theorem parseMessage_within (x509 : X509) (h : Hello) {b : Bytes} (hb : b <+: h.body) :
    h.Within (parseMessage x509 h.mtype b {}) (parseMessage x509 h.mtype h.body {}) := by
  cases h with
  | client h => exact within_client h hb
  | server h => exact within_server h hb

theorem parse_single (x509 : X509) (i : Info) {buf : Bytes} {m : UInt8 × Bytes}
    (h : messages (collectHandshake buf) = [m]) :
    parse x509 buf i = parseMessage x509 m.1 m.2 i := by
  rw [parse_foldl, h, List.foldl_cons, List.foldl_nil]

/-- **A capture that stops early shows nothing that the hello does not say**, wherever it is cut
into records and wherever the capture stops. -/
theorem parse_truncated (x509 : X509) (h : Hello) (rs : List Record)
    (hcut : rs.flatMap Record.payload = h.message.encode) (p : Bytes)
    (hp : p <+: rs.flatMap Record.encode) :
    h.Within (parse x509 p {}) (parse x509 (rs.flatMap Record.encode) {}) := by
  have hwhole := h.messages_wire hcut
  have htr := messages_truncates hp
  rw [hwhole] at htr
  rw [parse_single x509 {} hwhole]
  generalize hpart : messages (collectHandshake p) = ms at htr
  cases htr with
  | nil =>
    have hempty : parse x509 p {} = {} := by
      rw [parse_foldl, hpart, List.foldl_nil]
    rw [hempty]
    exact Hello.within_empty ..
  | @last x _ hx =>
    obtain ⟨ht, hb⟩ := hx
    rw [parse_single x509 {} hpart, ht]
    exact parseMessage_within x509 h hb
  | cons _ hnil =>
    cases hnil
    rw [parse_single x509 {} hpart]
    exact parseMessage_within x509 h List.prefix_rfl

/-- The hello in two records, the second of which starts inside its key share. -/
def selectsH2Records : List Record :=
  [⟨3, 3, (Hello.server selectsH2).message.encode.take 50, by decide +kernel⟩,
    ⟨3, 3, (Hello.server selectsH2).message.encode.drop 50, by decide +kernel⟩]

theorem parse_truncated_selectsH2 :
    (Hello.server selectsH2).Within
      (parse (fun _ => none) ((selectsH2Records.flatMap Record.encode).take 62) {})
      (parse (fun _ => none) (selectsH2Records.flatMap Record.encode) {}) :=
  parse_truncated (fun _ => none) (.server selectsH2) selectsH2Records (by decide +kernel) _
    (List.take_prefix ..)

end Tlstat.Tlsparse
