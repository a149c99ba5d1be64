import Mathlib.Data.List.Perm.Basic
import Mathlib.Data.List.Nodup
import Mathlib.Data.List.TakeWhile
import Mathlib.Tactic.Common

/-! What the loader opens and closes. Every call that opens something may fail, and so may every
`Close`; the answers of the outside are arbitrary. -/

namespace Tlstat
namespace Loader

/-- The programs, in the order in which `tlstatPrograms.Close` has them. -/
inductive Prog
  | kTcpRecvmsg
  | kTcpSendmsg
  | krTcpRecvmsg
  | tpInetSockSetState
  | uSslFree
  | uSslRead
  | uSslSetFd
  | uSslWrite
  | urSslRead
deriving DecidableEq, Repr

inductive MapName
  | events
  | flows
  | recvCtxs
  | sslCtxs
  | sslFds
  | sslStats
deriving DecidableEq, Repr

/-- What has to be closed again: a loaded program, a map, the attachment of a program to its hook,
the reader of the ring. -/
inductive Handle
  | prog (p : Prog)
  | map (m : MapName)
  | link (p : Prog)
  | reader
deriving DecidableEq, Repr

def programs : List Handle :=
  [.prog .kTcpRecvmsg, .prog .kTcpSendmsg, .prog .krTcpRecvmsg, .prog .tpInetSockSetState,
    .prog .uSslFree, .prog .uSslRead, .prog .uSslSetFd, .prog .uSslWrite, .prog .urSslRead]

def maps : List Handle :=
  [.map .events, .map .flows, .map .recvCtxs, .map .sslCtxs, .map .sslFds, .map .sslStats]

def kernelProbes : List Prog := [.kTcpSendmsg, .kTcpRecvmsg, .krTcpRecvmsg, .tpInetSockSetState]

def uprobes : List Prog := [.uSslSetFd, .uSslFree, .uSslWrite, .uSslRead, .urSslRead]

/-- What the outside answers: whether each call succeeds. -/
structure Outside where
  removeMemlock : Bool
  loadObjects : Bool
  attach : Prog → Bool
  openExecutable : Bool
  newReader : Bool
  close : Handle → Bool

inductive Act
  | opened (h : Handle)
  | closed (h : Handle)
deriving DecidableEq, Repr

end Loader

open Loader in
/-- A loader whose objects are loaded. -/
structure Loader where
  links : List Prog := []
  reader : Bool := false
deriving DecidableEq, Repr

namespace Loader

/-- `_TlstatClose` stops at the first error. -/
def tlstatClose (w : Outside) : List Handle → List Act × Bool
  | [] => ([], true)
  | h :: hs =>
    if w.close h then
      let r := tlstatClose w hs
      (.closed h :: r.1, r.2)
    else ([.closed h], false)

/-- `tlstatObjects.Close`, which closes the programs and then the maps. -/
def objectsClose (w : Outside) : List Act :=
  let r := tlstatClose w programs
  -- an error of the programs leaves the maps open
  if r.2 then r.1 ++ (tlstatClose w maps).1 else r.1

def close (w : Outside) (l : Loader) : List Act :=
  (if l.reader then [.closed .reader] else []) ++ l.links.map (fun p => .closed (.link p)) ++
    objectsClose w

/-- `must` with its arguments: an attachment that succeeds is recorded. -/
def must (w : Outside) (s : Loader × List Act) (p : Prog) : Loader × List Act :=
  if w.attach p then ({ s.1 with links := s.1.links ++ [p] }, s.2 ++ [.opened (.link p)]) else s

/-- The loop of `attachSSL`, which returns at the first error. -/
def attachLoop (w : Outside) (s : Loader × List Act) : List Prog → Loader × List Act
  | [] => s
  | p :: ps =>
    if w.attach p then
      attachLoop w ({ s.1 with links := s.1.links ++ [p] }, s.2 ++ [.opened (.link p)]) ps
    else s

def attachSSL (w : Outside) (s : Loader × List Act) : Loader × List Act :=
  if w.openExecutable then attachLoop w s uprobes else s

/-- `New`, with what it opened and closed. A failed load leaves nothing open. The arguments of
`errors.Join` are all evaluated, so that every kernel probe is tried whatever the others do; an error
of the uprobes is only printed. The text of an error is what it puts before the one it wraps. -/
def new (w : Outside) (libsslPath : String) : Except String Loader × List Act :=
  if !w.removeMemlock then (.error "remove memlock", [])
  else if !w.loadObjects then (.error "load objects", [])
  else
    let s := kernelProbes.foldl (must w) ({}, (programs ++ maps).map .opened)
    -- from here on every error closes what was opened
    if !kernelProbes.all w.attach then (.error "attach kernel probes", s.2 ++ s.1.close w)
    else
      let s := if libsslPath ≠ "" then attachSSL w s else s
      if !w.newReader then (.error "ringbuf", s.2 ++ s.1.close w)
      else (.ok { s.1 with reader := true }, s.2 ++ [.opened .reader])

/-- `New` and, when it returned a loader, the deferred `Close` of `main`. -/
def lifetime (w : Outside) (libsslPath : String) : List Act :=
  match new w libsslPath with
  | (.ok l, acts) => acts ++ l.close w
  | (.error _, acts) => acts

/-! ### What is released -/

/-- The objects behind the first one whose `Close` fails. -/
def skipped (w : Outside) : List Handle := ((programs ++ maps).dropWhile w.close).tail

/-- What is open of a loader. -/
def handles (l : Loader) : List Handle :=
  programs ++ maps ++ l.links.map .link ++ if l.reader then [.reader] else []

variable {w : Outside}

theorem tlstatClose_eq (hs : List Handle) : (tlstatClose w hs).2 = hs.all w.close ∧
    ∃ cs, (tlstatClose w hs).1 = cs.map .closed ∧ cs ++ (hs.dropWhile w.close).tail = hs := by
  induction hs with
  | nil => exact ⟨rfl, [], rfl, rfl⟩
  | cons h hs ih =>
    obtain ⟨hall, cs, hcs, hsplit⟩ := ih
    unfold tlstatClose
    by_cases hh : w.close h = true
    · rw [if_pos hh, List.dropWhile_cons_of_pos hh, List.all_cons, hh, Bool.true_and]
      refine ⟨hall, h :: cs, congrArg (Act.closed h :: ·) hcs, ?_⟩
      rw [List.cons_append, hsplit]
    · rw [if_neg hh, List.dropWhile_cons_of_neg hh, List.all_cons, Bool.eq_false_iff.mpr hh]
      exact ⟨rfl, [h], rfl, rfl⟩

theorem objectsClose_eq (w : Outside) : ∃ cs : List Handle, objectsClose w = cs.map .closed ∧
    cs ++ skipped w = programs ++ maps := by
  obtain ⟨hall, ps, hps, hprograms⟩ := tlstatClose_eq (w := w) programs
  obtain ⟨-, ms, hms, hmaps⟩ := tlstatClose_eq (w := w) maps
  unfold objectsClose skipped
  dsimp only
  rw [hall, List.dropWhile_append]
  by_cases hp : programs.all w.close = true
  · have hnone : programs.dropWhile w.close = [] :=
      List.dropWhile_eq_nil_iff.mpr fun h hh => List.all_eq_true.mp hp h hh
    rw [hnone, List.tail_nil, List.append_nil] at hprograms
    refine ⟨ps ++ ms, ?_, ?_⟩
    · rw [if_pos hp, hps, hms, List.map_append]
    · rw [hnone, List.isEmpty_nil, if_pos rfl, List.append_assoc, hmaps, hprograms]
  · have hsome : programs.dropWhile w.close ≠ [] := fun hnil =>
      hp (List.all_eq_true.mpr (List.dropWhile_eq_nil_iff.mp hnil))
    refine ⟨ps, ?_, ?_⟩
    · rw [if_neg hp, hps]
    · rw [if_neg (by simpa using hsome), List.tail_append_of_ne_nil hsome, ← List.append_assoc,
        hprograms]

theorem close_eq (w : Outside) (l : Loader) : ∃ cs : List Handle, l.close w = cs.map .closed ∧
    cs.Perm (l.handles.filter fun h => h ∉ skipped w) := by
  obtain ⟨cs, hcs, hsplit⟩ := objectsClose_eq w
  have hnodup : (cs ++ skipped w).Nodup := by
    rw [hsplit]
    decide
  have hlinks : ∀ h ∈ l.links.map Handle.link ++ (if l.reader then [Handle.reader] else []),
      h ∉ skipped w := by
    intro h hh hskip
    have hobj : h ∈ programs ++ maps := hsplit ▸ List.mem_append_right cs hskip
    rcases List.mem_append.mp hh with hh | hh
    · obtain ⟨p, -, rfl⟩ := List.mem_map.mp hh
      revert hobj
      cases p <;> decide
    · split_ifs at hh
      · obtain rfl := List.mem_singleton.mp hh
        exact absurd hobj (by decide)
      · cases hh
  have hobjects : (programs ++ maps).filter (fun h => h ∉ skipped w) = cs := by
    rw [← hsplit, List.filter_append, List.filter_eq_self.mpr, List.filter_eq_nil_iff.mpr,
      List.append_nil]
    · intro h hh
      simpa using hh
    · intro h hh
      simpa using fun hskip => (List.nodup_append.mp hnodup).2.2 h hh h hskip rfl
  refine ⟨(if l.reader then [Handle.reader] else []) ++ l.links.map .link ++ cs, ?_, ?_⟩
  · unfold close
    rw [hcs, List.map_append, List.map_append, List.map_map]
    split_ifs <;> rfl
  · unfold handles
    rw [List.append_assoc _ _ (if l.reader then _ else _), List.filter_append, hobjects,
      List.filter_eq_self.mpr fun h hh => by simpa using hlinks h hh]
    exact (List.perm_append_comm.append_right cs).trans List.perm_append_comm

/-! ### What is opened -/

/-- The trace is the opening of what the loader holds, its links taken from `ps` in order. -/
structure Owns (ps : List Prog) (s : Loader × List Act) : Prop where
  opened : s.2 = s.1.handles.map .opened
  sublist : s.1.links.Sublist ps
  noReader : s.1.reader = false

theorem Owns.attached {ps : List Prog} {s : Loader × List Act} (h : Owns ps s) (qs : List Prog)
    {rs : List Prog} (hqs : qs.Sublist rs) : Owns (ps ++ rs)
      ({ s.1 with links := s.1.links ++ qs }, s.2 ++ qs.map fun p => .opened (.link p)) := by
  refine ⟨?_, h.sublist.append hqs, h.noReader⟩
  have hopened := h.opened
  unfold handles at hopened ⊢
  dsimp only
  rw [hopened, h.noReader]
  simp

theorem foldl_must_eq (s : Loader × List Act) (ps : List Prog) : ps.foldl (must w) s =
    ({ s.1 with links := s.1.links ++ ps.filter w.attach },
      s.2 ++ (ps.filter w.attach).map fun p => .opened (.link p)) := by
  induction ps generalizing s with
  | nil => simp
  | cons p ps ih =>
    rw [List.foldl_cons, ih]
    unfold must
    by_cases hp : w.attach p = true
    · rw [if_pos hp, List.filter_cons_of_pos hp]
      simp
    · rw [if_neg hp, List.filter_cons_of_neg hp]

theorem attachLoop_eq (s : Loader × List Act) (ps : List Prog) : attachLoop w s ps =
    ({ s.1 with links := s.1.links ++ ps.takeWhile w.attach },
      s.2 ++ (ps.takeWhile w.attach).map fun p => .opened (.link p)) := by
  induction ps generalizing s with
  | nil => simp [attachLoop]
  | cons p ps ih =>
    unfold attachLoop
    by_cases hp : w.attach p = true
    · rw [if_pos hp, ih, List.takeWhile_cons_of_pos hp]
      simp
    · rw [if_neg hp, List.takeWhile_cons_of_neg hp]
      simp

/-- The uprobes that `New` attaches: those up to the first that fails. -/
def best (w : Outside) (libsslPath : String) : List Prog :=
  if libsslPath ≠ "" ∧ w.openExecutable = true then uprobes.takeWhile w.attach else []

theorem best_sublist (w : Outside) (libsslPath : String) : (best w libsslPath).Sublist uprobes := by
  unfold best
  split_ifs
  · exact List.takeWhile_sublist _
  · exact List.nil_sublist _

theorem owns_kernelProbes (w : Outside) : Owns kernelProbes
    (kernelProbes.foldl (must w) ({}, (programs ++ maps).map .opened)) := by
  rw [foldl_must_eq]
  have hempty : Owns [] (({} : Loader), (programs ++ maps).map Act.opened) :=
    ⟨rfl, List.Sublist.refl [], rfl⟩
  exact hempty.attached _ List.filter_sublist

theorem owns_best {s : Loader × List Act} (h : Owns kernelProbes s) (w : Outside)
    (libsslPath : String) : Owns (kernelProbes ++ uprobes)
      (if libsslPath ≠ "" then attachSSL w s else s) ∧
      (if libsslPath ≠ "" then attachSSL w s else s).1.links = s.1.links ++ best w libsslPath := by
  have hbest : (if libsslPath ≠ "" then attachSSL w s else s) =
      ({ s.1 with links := s.1.links ++ best w libsslPath },
        s.2 ++ (best w libsslPath).map fun p => .opened (.link p)) := by
    unfold attachSSL best
    rw [attachLoop_eq]
    by_cases hpath : libsslPath ≠ "" <;> by_cases hexe : w.openExecutable = true <;>
      simp [hpath, hexe]
  rw [hbest]
  exact ⟨h.attached _ (best_sublist w libsslPath), rfl⟩

/-- `New` opens nothing and fails, or fails and closes what it opened, or returns it with a reader
if everything but the uprobes succeeded. -/
theorem new_cases (w : Outside) (libsslPath : String) :
    (∃ e, new w libsslPath = (.error e, []) ∧ ¬(w.removeMemlock = true ∧ w.loadObjects = true)) ∨
    (∃ e s, Owns (kernelProbes ++ uprobes) s ∧ new w libsslPath = (.error e, s.2 ++ s.1.close w) ∧
      ¬((∀ p ∈ kernelProbes, w.attach p = true) ∧ w.newReader = true)) ∨
    ∃ s, Owns (kernelProbes ++ uprobes) s ∧
      new w libsslPath = (.ok { s.1 with reader := true }, s.2 ++ [.opened .reader]) ∧
      s.1.links = kernelProbes ++ best w libsslPath ∧
      w.removeMemlock = true ∧ w.loadObjects = true ∧
      (∀ p ∈ kernelProbes, w.attach p = true) ∧ w.newReader = true := by
  have howns := owns_kernelProbes w
  have hkernel : (kernelProbes.foldl (must w) ({}, (programs ++ maps).map .opened)).1.links =
      kernelProbes.filter w.attach := by
    rw [foldl_must_eq]
    exact List.nil_append _
  unfold new
  dsimp only
  revert howns hkernel
  generalize kernelProbes.foldl (must w) ({}, (programs ++ maps).map .opened) = s
  intro howns hkernel
  obtain ⟨hbest, hlinks⟩ := owns_best howns w libsslPath
  by_cases hmem : w.removeMemlock = true
  swap
  · exact .inl ⟨"remove memlock", by simp [hmem], fun h => hmem h.1⟩
  by_cases hload : w.loadObjects = true
  swap
  · exact .inl ⟨"load objects", by simp [hmem, hload], fun h => hload h.2⟩
  refine .inr ?_
  by_cases hall : kernelProbes.all w.attach = true
  swap
  · refine .inl ⟨"attach kernel probes", s, ⟨howns.opened, howns.sublist.trans ?_, howns.noReader⟩, ?_,
      fun h => hall (List.all_eq_true.mpr h.1)⟩
    · exact List.sublist_append_left _ _
    · simp [hmem, hload, hall]
  by_cases hreader : w.newReader = true
  swap
  · exact .inl ⟨"ringbuf", _, hbest, by simp [hmem, hload, hall, hreader], fun h => hreader h.2⟩
  have hfull : kernelProbes.filter w.attach = kernelProbes :=
    List.filter_eq_self.mpr (List.all_eq_true.mp hall)
  refine .inr ⟨_, hbest, by simp [hmem, hload, hall, hreader], ?_, hmem, hload,
    List.all_eq_true.mp hall, hreader⟩
  rw [hlinks, hkernel, hfull]

theorem nodup_handles {l : Loader} (h : l.links.Nodup) : l.handles.Nodup := by
  have hobjects : (programs ++ maps).Nodup := by decide
  have hlinks : (l.links.map Handle.link).Nodup := h.map fun p q hpq => Handle.link.inj hpq
  unfold handles
  rw [List.append_assoc _ _ (if l.reader then _ else _), List.nodup_append]
  refine ⟨hobjects, List.nodup_append.mpr ⟨hlinks, ?_, fun a ha b hb => ?_⟩, fun a ha b hb => ?_⟩
  · split_ifs
    · exact List.nodup_singleton _
    · exact List.nodup_nil
  · obtain ⟨p, -, rfl⟩ := List.mem_map.mp ha
    split_ifs at hb
    · obtain rfl := List.mem_singleton.mp hb
      exact fun heq => Handle.noConfusion heq
    · cases hb
  · rintro rfl
    rcases List.mem_append.mp hb with hb | hb
    · obtain ⟨p, -, rfl⟩ := List.mem_map.mp hb
      revert ha
      cases p <;> decide
    · split_ifs at hb
      · obtain rfl := List.mem_singleton.mp hb
        exact absurd ha (by decide)
      · cases hb

/-- **Whatever fails, what was opened is closed once.** `New` returns a loader exactly if everything
but the uprobes succeeds, and then the four kernel probes are attached and the uprobes up to the first
that fails. Whether `New` fails at any of its steps or `main` closes the loader later, nothing is
opened twice, all that was opened is closed afterwards, once, and nothing else is, but for the objects
behind the first one whose own `Close` fails. -/
theorem lifetime_balanced (w : Outside) (libsslPath : String) :
    (∃ os cs : List Handle, lifetime w libsslPath = os.map .opened ++ cs.map .closed ∧ os.Nodup ∧
      cs.Perm (os.filter fun h => h ∉ skipped w)) ∧
    ((∃ l, (new w libsslPath).1 = .ok l) ↔ w.removeMemlock = true ∧ w.loadObjects = true ∧
      (∀ p ∈ kernelProbes, w.attach p = true) ∧ w.newReader = true) ∧
    ∀ l, (new w libsslPath).1 = .ok l → l.links = kernelProbes ++ best w libsslPath := by
  have hprobes : (kernelProbes ++ uprobes).Nodup := by decide
  unfold lifetime
  rcases new_cases w libsslPath with ⟨e, hnew, hfail⟩ | ⟨e, s, howns, hnew, hfail⟩ |
    ⟨s, howns, hnew, hlinks, hgood⟩
  · rw [hnew]
    refine ⟨⟨[], [], rfl, List.nodup_nil, List.Perm.nil⟩, ⟨?_, fun h => absurd ⟨h.1, h.2.1⟩ hfail⟩, ?_⟩
    · rintro ⟨l, hl⟩
      cases hl
    · intro l hl
      cases hl
  · obtain ⟨cs, hcs, hperm⟩ := close_eq w s.1
    rw [hnew]
    refine ⟨⟨s.1.handles, cs, ?_, nodup_handles (hprobes.sublist howns.sublist), hperm⟩,
      ⟨?_, fun h => absurd h.2.2 hfail⟩, ?_⟩
    · rw [← hcs, ← howns.opened]
    · rintro ⟨l, hl⟩
      cases hl
    · intro l hl
      cases hl
  · obtain ⟨cs, hcs, hperm⟩ := close_eq w { s.1 with reader := true }
    rw [hnew]
    have hnodup : ({ s.1 with reader := true } : Loader).handles.Nodup :=
      nodup_handles (hprobes.sublist howns.sublist)
    refine ⟨⟨_, cs, ?_, hnodup, hperm⟩, ⟨fun _ => hgood, fun _ => ⟨_, rfl⟩⟩, ?_⟩
    · rw [← hcs, howns.opened]
      unfold handles
      rw [howns.noReader]
      simp
    · intro l hl
      obtain rfl := Except.ok.inj hl
      exact hlinks

end Loader
end Tlstat
