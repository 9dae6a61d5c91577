import Cannelloni.Interop
import Mathlib.Logic.Function.Basic

/-!
# The tunnels of the bridge (`Runner`)

The bridge runs any number of tunnels, each between a CAN interface and a gateway. `Runner::add`
enters both sockets of a tunnel into a map from file descriptors to endpoints, and `Runner::run`
looks up the descriptors that `epoll_wait` reports, reads from one endpoint and writes to the
other. Tunnels may be added at any time, since gateways are also found while the bridge runs.
`Runner::add` is one step: the thread that finds gateways calls it beside `Runner::run`, on a map
without a lock, and what a lookup in the middle of it makes of the map is not modelled.

The kernel promises that a new socket has a descriptor that is not in use and that only
descriptors that were registered are reported (`RunnerEvent.Possible`).
-/

namespace Cannelloni

/-! ## Data -/

/-- What waits at a socket that can be read. -/
inductive Waiting
  /-- a frame at a CAN socket, or `none` when a read does not return a whole one -/
  | message (m : Option CanFrame)
  /-- a datagram, with what the local variables of the reader hold -/
  | datagram (stack : Stack) (d : List UInt8)

/-- What is handed to a socket. -/
inductive Traffic
  | frame (f : CanFrame)
  | datagram (d : List UInt8)
deriving DecidableEq

/-- An endpoint with the descriptor of its socket. -/
inductive Endpoint
  | can (fd : ℕ)
  | udp (fd : ℕ)
deriving DecidableEq, Repr

/-- `struct Bridge`: where frames come from and where they go. -/
structure Bridge where
  rx : Endpoint
  tx : Endpoint
deriving DecidableEq, Repr

/-- The runner, with (ghost) what was read from each socket and what was handed to it. -/
structure Runner where
  fds : ℕ → Option Bridge
  epoll : List ℕ
  frames : List CanFrame
  taken : ℕ → List Waiting
  written : ℕ → List Traffic

inductive RunnerFault
  /-- A descriptor without a tunnel: `fds[fd]` makes an entry of null pointers. -/
  | nullEndpoint (fd : ℕ)
  | bridge (fault : BridgeFault)
deriving DecidableEq, Repr

/-! ## The code -/

/-- `get_fd`. -/
def Endpoint.getFd : Endpoint → ℕ
  | .can fd => fd
  | .udp fd => fd

/-- The loop of `CANEndpoint::write` on a socket that takes `room` more frames. -/
def CanEndpoint.write : ℕ → List CanFrame → Except BridgeFault (List CanFrame)
  | _, [] => .ok []
  | 0, _ :: _ => .error .exited
  | room + 1, f :: frames => do
    let written ← CanEndpoint.write room frames
    return f :: written

/-- `read`. A read that does not find what it expects ends the program. -/
def Endpoint.read (e : Endpoint) (w : Waiting) (frames : List CanFrame) :
    Except BridgeFault (List CanFrame) :=
  match e, w with
  | .can _, .message m => CanEndpoint.read m frames
  | .udp _, .datagram stack d => do
    let r ← UdpEndpoint.read stack d frames
    return r.frames
  | _, _ => .error .exited

/-- `write`. -/
def Endpoint.write (o : Bytes.ByteOrder) (room : ℕ) (e : Endpoint) (frames : List CanFrame) :
    Except BridgeFault (List Traffic) :=
  match e with
  | .can _ => do
    let written ← CanEndpoint.write room frames
    return written.map .frame
  | .udp _ => do
    let d ← UdpEndpoint.write o frames
    return [.datagram d]

/-- The state after the constructor. -/
def Runner.init : Runner where
  fds := fun _ => none
  epoll := []
  frames := []
  taken := fun _ => []
  written := fun _ => []

/-- `Runner::add`, when the two sockets could be opened. -/
def Runner.add (s : Runner) (can udp : ℕ) : Runner :=
  let fds := Function.update s.fds can (some ⟨.can can, .udp udp⟩)
  let fds := Function.update fds udp (some ⟨.udp udp, .can can⟩)
  { s with fds := fds, epoll := s.epoll ++ [can] ++ [udp] }

/-- The body of the loop of `Runner::run` for one reported descriptor. -/
def Runner.forward (o : Bytes.ByteOrder) (s : Runner) (fd : ℕ) (w : Waiting) (room : ℕ) :
    Except BridgeFault (Option Runner) :=
  match s.fds fd with
  | none => .ok none
  | some tunnel => do
    -- `frames.clear()`
    let frames ← tunnel.rx.read w []
    let out ← tunnel.tx.write o room frames
    let peer := tunnel.tx.getFd
    return some { s with
      frames := frames
      taken := Function.update s.taken fd (s.taken fd ++ [w])
      written := Function.update s.written peer (s.written peer ++ out) }

inductive RunnerEvent
  /-- A tunnel is added, as one step, and its sockets get these descriptors. -/
  | add (can udp : ℕ)
  /-- `epoll_wait` reports `fd`, where `w` waits; the socket written to takes `room` frames. -/
  | ready (fd : ℕ) (w : Waiting) (room : ℕ)

def Runner.step (o : Bytes.ByteOrder) (s : Runner) : RunnerEvent → Except RunnerFault Runner
  | .add can udp => .ok (s.add can udp)
  | .ready fd w room =>
    match s.forward o fd w room with
    | .error fault => .error (.bridge fault)
    | .ok none => .error (.nullEndpoint fd)
    | .ok (some s) => .ok s

/-! ## What is asked of the kernel and of the senders -/

/-- The frames that are read where `w` waits. -/
def Waiting.frames : Waiting → List CanFrame
  | .message m => m.toList
  | .datagram stack d =>
    match UdpEndpoint.read stack d [] with
    | .ok r => r.frames
    | .error _ => []

/-- What a tunnel makes of what waits at one of its ends. -/
def Waiting.forwarded : Waiting → List Traffic
  | .message m => m.toList.map fun f => .datagram (packetHeader 0 1 ++ wireBytes f.toCanfd)
  | .datagram stack d => (Waiting.datagram stack d).frames.map .frame

/-- What waits belongs to the socket and can be read: a frame of at most eight bytes at a CAN
socket, and at the other a datagram that the reader gets through. -/
def Endpoint.Serves (e : Endpoint) (w : Waiting) (room : ℕ) : Prop :=
  match e, w with
  | .can _, .message m => ∃ f, m = some f ∧ f.canDlc.toNat ≤ canMaxDlen
  | .udp _, .datagram stack d =>
    ∃ r, UdpEndpoint.read stack d [] = .ok r ∧ r.frames.length ≤ room
  | _, _ => False

theorem CanEndpoint.write_ok {room : ℕ} {frames : List CanFrame} (h : frames.length ≤ room) :
    CanEndpoint.write room frames = .ok frames := by
  induction frames generalizing room with
  | nil => simp [CanEndpoint.write]
  | cons f frames ih =>
    obtain ⟨room, rfl⟩ : ∃ k, room = k + 1 := ⟨room - 1, by simp at h; omega⟩
    rw [CanEndpoint.write, ih (by simpa using h)]
    rfl

/-- The two ends of a tunnel are a CAN socket and a UDP socket. -/
inductive Bridge.Crosses : Bridge → Prop
  | toUdp (can udp : ℕ) : Crosses ⟨.can can, .udp udp⟩
  | toCan (can udp : ℕ) : Crosses ⟨.udp udp, .can can⟩

@[simp] theorem Endpoint.getFd_can (fd : ℕ) : (Endpoint.can fd).getFd = fd := rfl

@[simp] theorem Endpoint.getFd_udp (fd : ℕ) : (Endpoint.udp fd).getFd = fd := rfl

/-- What waits at one end of a tunnel is read and handed to the other end. -/
theorem read_write_ok (o : Bytes.ByteOrder) {b : Bridge} (hb : b.Crosses) {w : Waiting} {room : ℕ}
    (h : b.rx.Serves w room) :
    b.rx.read w [] = .ok w.frames ∧ b.tx.write o room w.frames = .ok w.forwarded := by
  cases hb with
  | toUdp can udp =>
    -- a frame from the CAN side
    cases w with
    | datagram stack d => exact False.elim h
    | message m =>
      obtain ⟨f, rfl, hdlc⟩ := h
      have hwrite : UdpEndpoint.write o [f] = .ok (packetHeader 0 1 ++ wireBytes f.toCanfd) :=
        UdpEndpoint.write_singleton o hdlc
      refine ⟨rfl, ?_⟩
      show (do let d ← UdpEndpoint.write o [f]; pure [Traffic.datagram d]) = _
      rw [hwrite]
      rfl
  | toCan can udp =>
    -- a datagram from the gateway
    cases w with
    | message m => exact False.elim h
    | datagram stack d =>
      obtain ⟨r, hr, hroom⟩ := h
      have hframes : (Waiting.datagram stack d).frames = r.frames := by
        simp only [Waiting.frames, hr]
      constructor
      · show (do let r ← UdpEndpoint.read stack d []; pure r.frames) = _
        rw [hr, hframes]
        rfl
      · simp only [Waiting.forwarded, hframes]
        show (do let written ← CanEndpoint.write room r.frames
                 pure (written.map Traffic.frame)) = _
        rw [CanEndpoint.write_ok hroom]
        rfl

/-- The runner after it forwarded what waited at `fd`. -/
def Runner.next (s : Runner) (fd : ℕ) (b : Bridge) (w : Waiting) : Runner :=
  { s with
    frames := w.frames
    taken := Function.update s.taken fd (s.taken fd ++ [w])
    written := Function.update s.written b.tx.getFd (s.written b.tx.getFd ++ w.forwarded) }

theorem Runner.forward_ok (o : Bytes.ByteOrder) {s : Runner} {fd : ℕ} {b : Bridge}
    (hfd : s.fds fd = some b) (hb : b.Crosses) {w : Waiting} {room : ℕ}
    (h : b.rx.Serves w room) : s.forward o fd w room = .ok (some (s.next fd b w)) := by
  obtain ⟨hread, hwrite⟩ := read_write_ok o hb h
  unfold Runner.forward
  rw [hfd]
  simp only [hread, hwrite, bind, Except.bind]
  rfl

/-! ## The invariant -/

/-- Every registered descriptor has a tunnel, whose other end leads back; what was handed to the
other end is what was read here; unused descriptors have no history. -/
structure Runner.Inv (s : Runner) : Prop where
  known : ∀ fd, fd ∈ s.epoll ↔ (s.fds fd).isSome
  rx_fd : ∀ fd b, s.fds fd = some b → b.rx.getFd = fd
  crosses : ∀ fd b, s.fds fd = some b → b.Crosses
  back : ∀ fd b, s.fds fd = some b → s.fds b.tx.getFd = some ⟨b.tx, b.rx⟩
  forwarded : ∀ fd b, s.fds fd = some b →
    s.written b.tx.getFd = (s.taken fd).flatMap Waiting.forwarded
  fresh : ∀ fd, fd ∉ s.epoll → s.taken fd = [] ∧ s.written fd = []

theorem Runner.inv_init : Runner.init.Inv where
  known := by simp [init]
  rx_fd := by simp [init]
  crosses := by simp [init]
  back := by simp [init]
  forwarded := by simp [init]
  fresh := fun _ _ => ⟨rfl, rfl⟩

namespace Runner.Inv

variable {s : Runner}

/-- The other end of a tunnel is registered, too. -/
theorem peer_mem (h : s.Inv) {fd : ℕ} {b : Bridge} (hb : s.fds fd = some b) :
    b.tx.getFd ∈ s.epoll := by
  rw [h.known, h.back fd b hb]
  rfl

/-- Two descriptors that lead to the same one are the same. -/
theorem fd_eq_of_peer (h : s.Inv) {fd fd' : ℕ} {b b' : Bridge} (hb : s.fds fd = some b)
    (hb' : s.fds fd' = some b') (heq : b.tx.getFd = b'.tx.getFd) : fd = fd' := by
  have hback := h.back fd b hb
  have hback' := h.back fd' b' hb'
  rw [heq, hback'] at hback
  have hrx : b'.rx = b.rx := congrArg Bridge.tx (Option.some.inj hback)
  rw [← h.rx_fd fd b hb, ← h.rx_fd fd' b' hb', hrx]

/-- A tunnel between two new sockets. -/
theorem add (h : s.Inv) {can udp : ℕ} (hne : can ≠ udp) (hcan : can ∉ s.epoll)
    (hudp : udp ∉ s.epoll) : (s.add can udp).Inv := by
  have hfds : ∀ fd, (s.add can udp).fds fd
      = if fd = udp then some ⟨.udp udp, .can can⟩
        else if fd = can then some ⟨.can can, .udp udp⟩ else s.fds fd := by
    intro fd
    show Function.update (Function.update s.fds can _) udp _ fd = _
    rw [Function.update_apply, Function.update_apply]
  have hnew : ∀ fd, fd ∉ s.epoll → s.fds fd = none := by
    intro fd hfd
    rw [h.known] at hfd
    exact Option.not_isSome_iff_eq_none.mp hfd
  have hmem : ∀ fd, fd ∈ (s.add can udp).epoll ↔ fd ∈ s.epoll ∨ fd = can ∨ fd = udp := by
    intro fd
    show fd ∈ s.epoll ++ [can] ++ [udp] ↔ _
    simp
  -- the entries of the other tunnels do not mention the new descriptors
  have hold : ∀ fd b, s.fds fd = some b → fd ≠ can ∧ fd ≠ udp ∧ b.tx.getFd ≠ can ∧
      b.tx.getFd ≠ udp := by
    intro fd b hb
    have hfd : fd ∈ s.epoll := by
      rw [h.known, hb]
      rfl
    have hpeer := h.peer_mem hb
    refine ⟨?_, ?_, ?_, ?_⟩ <;> intro heq
    · exact hcan (heq ▸ hfd)
    · exact hudp (heq ▸ hfd)
    · exact hcan (heq ▸ hpeer)
    · exact hudp (heq ▸ hpeer)
  -- an entry is one of the two new ones or an old one
  have hcases : ∀ fd b, (s.add can udp).fds fd = some b →
      (fd = udp ∧ b = ⟨.udp udp, .can can⟩) ∨ (fd = can ∧ b = ⟨.can can, .udp udp⟩) ∨
        s.fds fd = some b := by
    intro fd b hb
    rw [hfds] at hb
    split at hb
    · next heq => exact .inl ⟨heq, (Option.some.inj hb).symm⟩
    · split at hb
      · next heq => exact .inr (.inl ⟨heq, (Option.some.inj hb).symm⟩)
      · exact .inr (.inr hb)
  refine ⟨?_, ?_, ?_, ?_, ?_, ?_⟩
  · intro fd
    rw [hmem, hfds]
    by_cases hu : fd = udp
    · simp [hu]
    · by_cases hc : fd = can
      · rw [if_neg hu, if_pos hc]
        simp [hc]
      · rw [if_neg hu, if_neg hc, ← h.known]
        simp [hu, hc]
  · intro fd b hb
    rcases hcases fd b hb with ⟨rfl, rfl⟩ | ⟨rfl, rfl⟩ | hb
    · rfl
    · rfl
    · exact h.rx_fd fd b hb
  · intro fd b hb
    rcases hcases fd b hb with ⟨rfl, rfl⟩ | ⟨rfl, rfl⟩ | hb
    · exact .toCan can fd
    · exact .toUdp fd udp
    · exact h.crosses fd b hb
  · intro fd b hb
    rw [hfds]
    rcases hcases fd b hb with ⟨rfl, rfl⟩ | ⟨rfl, rfl⟩ | hb
    · rw [Endpoint.getFd_can, if_neg hne, if_pos rfl]
    · rw [Endpoint.getFd_udp, if_pos rfl]
    · obtain ⟨-, -, hc, hu⟩ := hold fd b hb
      rw [if_neg hu, if_neg hc]
      exact h.back fd b hb
  · intro fd b hb
    show s.written b.tx.getFd = (s.taken fd).flatMap Waiting.forwarded
    rcases hcases fd b hb with ⟨rfl, rfl⟩ | ⟨rfl, rfl⟩ | hb
    · rw [(h.fresh fd hudp).1]
      exact (h.fresh can hcan).2
    · rw [(h.fresh fd hcan).1]
      exact (h.fresh udp hudp).2
    · exact h.forwarded fd b hb
  · intro fd hfd
    rw [hmem] at hfd
    exact h.fresh fd fun hin => hfd (.inl hin)

/-- A reported descriptor. -/
theorem ready (h : s.Inv) (o : Bytes.ByteOrder) {fd : ℕ} {w : Waiting} {room : ℕ}
    (hfd : fd ∈ s.epoll)
    (hserves : ∀ tunnel, s.fds fd = some tunnel → tunnel.rx.Serves w room) :
    ∃ s', s.step o (.ready fd w room) = .ok s' ∧ s'.Inv ∧ s'.fds = s.fds ∧
      s'.taken = Function.update s.taken fd (s.taken fd ++ [w]) := by
  rw [h.known] at hfd
  obtain ⟨b, hb⟩ := Option.isSome_iff_exists.mp hfd
  have hforward := forward_ok o hb (h.crosses fd b hb) (hserves b hb)
  refine ⟨s.next fd b w, by simp only [Runner.step, hforward], ?_, rfl, rfl⟩
  refine ⟨h.known, h.rx_fd, h.crosses, h.back, ?_, ?_⟩
  · intro fd' b' hb'
    show Function.update s.written b.tx.getFd _ b'.tx.getFd
      = (Function.update s.taken fd _ fd').flatMap _
    by_cases heq : fd' = fd
    · subst heq
      obtain rfl : b = b' := Option.some.inj (hb.symm.trans hb')
      rw [Function.update_self, Function.update_self, h.forwarded fd' b hb, List.flatMap_append,
        List.flatMap_singleton]
    · -- another tunnel or the other direction of this one
      have hpeer : b'.tx.getFd ≠ b.tx.getFd := fun hp => heq (h.fd_eq_of_peer hb' hb hp)
      rw [Function.update_of_ne hpeer, Function.update_of_ne heq]
      exact h.forwarded fd' b' hb'
  · intro fd' hfd'
    have hne : fd' ≠ fd := by
      intro heq
      subst heq
      exact hfd' ((h.known fd').mpr hfd)
    have hne' : fd' ≠ b.tx.getFd := by
      intro heq
      exact hfd' (heq ▸ h.peer_mem hb)
    show Function.update s.taken fd _ fd' = [] ∧ Function.update s.written b.tx.getFd _ fd' = []
    rw [Function.update_of_ne hne, Function.update_of_ne hne']
    exact h.fresh fd' hfd'

end Runner.Inv

/-! ## Whole runs -/

end Cannelloni
