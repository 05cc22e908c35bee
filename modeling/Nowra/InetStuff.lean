import Nowra.EntFields
import Nowra.Iostuff
import Nowra.Stringop
import Nowra.String2ll

/-!
# Listening and connecting

`inet_stuff.c` : `inet_listen` and `inet_connect`, each with its own parser of an address
`host:port`, and the way of a service name to `inet_listen` : `host_port` takes it apart, for
`get_master_ent`, and `master_listen_init` puts it together again with `concatenate`.

The address of the socket is to be the one in the name, or none (`UsesAddress`). But the parser
works on the first 31 bytes, and the port is what `atoi` says, cut to 16 bits. The address is the
right one if and only if the name is short and its port is a decimal below `2^16`, or the name is
refused (`uses_address_iff`).
-/

namespace Nowra

/-! ## System calls -/

/-- The system calls that end the process when they fail. -/
inductive SockCall
  | socket
  | setsockopt
  | bind
  | fcntl
  | listen
  deriving DecidableEq

/-- How the code comes to an end. -/
inductive SockError
  | fault (f : Fault)
  /-- A call has failed. -/
  | fatal (call : SockCall)
  /-- `write_wait` does not return. -/
  | waiting
  deriving DecidableEq

/-- The address of a host. -/
inductive InAddr
  /-- `INADDR_ANY` -/
  | inaddrAny
  /-- What `inet_addr` makes of a text. -/
  | inetAddr (cp : Bytes)
  deriving DecidableEq

/-- The address of a socket. -/
structure SockaddrIn where
  sinAddr : InAddr
  sinPort : BitVec 16
  deriving DecidableEq

/-- A socket with its address, and the text that the port is made from. -/
structure InetSocket where
  sock : ℤ
  sin : SockaddrIn
  port : Bytes
  deriving DecidableEq

/-- What the system answers. A call of which only failure is looked at is given by its result. -/
structure SockAnswers where
  socket : ℤ
  setsockopt : ℤ → ℤ
  bind : ℤ → SockaddrIn → ℤ
  listen : ℤ → ℤ → ℤ
  /-- The result of `connect`, with `errno`. -/
  connect : ℤ → SockaddrIn → ℤ × ℤ
  /-- What `write_wait` is told. -/
  polls : List PollResult
  /-- The result of `getsockopt`, with `SO_ERROR`. -/
  getsockopt : ℤ → ℤ × ℤ
  getfl : ℤ → ℤ
  setfl : ℤ → ℤ → Bool → ℤ
  getfd : ℤ → ℤ
  setfd : ℤ → ℤ → Bool → ℤ

/-- `EINPROGRESS` -/
def einprogress : ℤ := 115

/-- `NON_BLOCKING` -/
def nonBlocking : ℤ := 1

/-- `CLOSE_ON_EXEC` -/
def closeOnExecOn : ℤ := 1

/-- Go on unless a call has failed. -/
def checkCall (call : SockCall) (result : ℤ) : Except SockError Unit :=
  if result < 0 then throw (.fatal call) else pure ()

/-- Take an outcome of code that handles memory over. -/
def liftFault {α : Type} : Except Fault α → Except SockError α
  | .ok a => .ok a
  | .error f => .error (.fault f)

@[simp] theorem liftFault_ok_bind {α β : Type} (a : α) (f : α → Except SockError β) :
    liftFault (.ok a) >>= f = f a := rfl

section Calls

variable (sys : SockAnswers)

/-- Set or clear the non-blocking flag. -/
def setNonBlocking (fd on : ℤ) : Except SockError Unit := do
  checkCall .fcntl (sys.getfl fd)
  checkCall .fcntl (sys.setfl fd (sys.getfl fd) (on ≠ 0))

/-- Set or clear the close-on-exec flag. -/
def closeOnExec (fd on : ℤ) : Except SockError Unit := do
  checkCall .fcntl (sys.getfd fd)
  checkCall .fcntl (sys.setfd fd (sys.getfd fd) (on ≠ 0))

/-! ## Addresses -/

/-- Copy an address to a buffer of 32 bytes, and break it at its last colon. -/
def parseAddr (addr : Bytes) : Option (Bytes × Bytes) :=
  match splitAtRight (addr.take 31) colon with
  | (host, some port) => some (host, port)
  | (_, none) => none

/-- `htons(atoi(port))`, as the host reads it. -/
def portOf (port : Bytes) : BitVec 16 := BitVec.ofInt 16 (atoi port)

/-- Create a listener. There is no socket if it returns `-1`. -/
def inetListen (addr : Option Bytes) (backlog blockMode : ℤ) :
    Except SockError (Option InetSocket) :=
  match addr.bind parseAddr with
  | none => pure none
  | some (host, port) => do
    let sin : SockaddrIn :=
      { sinPort := portOf port, sinAddr := if host ≠ [] then .inetAddr host else .inaddrAny }
    let sock := sys.socket
    checkCall .socket sock
    checkCall .setsockopt (sys.setsockopt sock)
    checkCall .bind (sys.bind sock sin)
    setNonBlocking sys sock blockMode
    checkCall .listen (sys.listen sock backlog)
    pure (some ⟨sock, sin, port⟩)

/-- Connect with a deadline. -/
def timedConnect (sock : ℤ) (sa : SockaddrIn) (timeout : ℤ) : Except SockError ℤ :=
  if timeout ≤ 0 then pure (-1)
  else if (sys.connect sock sa).1 = 0 then pure 0
  else if (sys.connect sock sa).2 ≠ einprogress then pure (-1)
  else
    match writeWait sys.polls with
    | none => throw .waiting
    | some waited =>
      if waited < 0 ∨ (sys.getsockopt sock).1 < 0 ∨ (sys.getsockopt sock).2 ≠ 0 then pure (-1)
      else pure 0

/-- Connect to a listener. There is no socket if it returns `-1`. -/
def inetConnect (addr : Option Bytes) (blockMode timeout : ℤ) :
    Except SockError (Option InetSocket) :=
  match addr.bind parseAddr with
  | none => pure none
  | some (host, port) => do
    let sin : SockaddrIn := { sinAddr := .inetAddr host, sinPort := portOf port }
    let sock := sys.socket
    checkCall .socket sock
    if timeout > 0 then
      setNonBlocking sys sock nonBlocking
      let connected ← timedConnect sys sock sin timeout
      if connected < 0 then pure none
      else
        if blockMode ≠ nonBlocking then setNonBlocking sys sock blockMode
        pure (some ⟨sock, sin, port⟩)
    else
      setNonBlocking sys sock blockMode
      if (sys.connect sock sin).1 < 0 ∧ (sys.connect sock sin).2 ≠ einprogress then pure none
      else pure (some ⟨sock, sin, port⟩)

/-! ## Service names -/

/-- The endpoint of a service. -/
structure EndPoint where
  /-- Nothing is a null pointer. -/
  host : Option Bytes
  port : Bytes

/-- Copy the host and the port of a service name for its entry. -/
def entHostPort (h : Heap) (name : Bytes) : Except Fault (EndPoint × Heap) := do
  let (_, h) ← mystrdup h (some name)
  let (host, port) := hostPort name
  let h ← (if host ≠ [] then do
      let (_, h) ← mystrdup h (some host)
      pure h
    else pure h)
  let (_, h) ← mystrdup h (some port)
  pure (⟨if host ≠ [] then some host else none, port⟩, h)

/-- Put the endpoint together. -/
def endPointText (serv : EndPoint) : Bytes := concatenate [serv.host.getD [], [colon], serv.port]

/-- Listen for an entry with this endpoint. -/
def listenEndPoint (h : Heap) (serv : EndPoint) (maxProc : ℤ) :
    Except SockError (Option InetSocket) := do
  let text := endPointText serv
  let (endPoint, h) ← liftFault (mallocStore h (intOf (text.length + 1)) (text ++ [0]))
  let listener ← inetListen sys (some text)
    (if maxProc > varProcLimit then maxProc else varProcLimit) nonBlocking
  closeOnExec sys (match listener with
    | some listener => listener.sock
    | none => -1) closeOnExecOn
  let _ ← liftFault (myfree h endPoint)
  pure listener

/-- From a service name to its listener. -/
def listenName (h : Heap) (name : Bytes) (maxProc : ℤ) :
    Except SockError (Option InetSocket) := do
  let (serv, h) ← liftFault (entHostPort h name)
  listenEndPoint sys h serv maxProc

end Calls

/-! ## The address in a name -/

/-- The parts of a name before and after its last colon. Without a colon it is all port. -/
def IsHostPort (name host port : Bytes) : Prop :=
  colon ∉ port ∧ (name = host ++ colon :: port ∨ colon ∉ name ∧ host = [] ∧ port = name)

/-- The text that a host address is made from. -/
def InAddr.text : InAddr → Bytes
  | inaddrAny => []
  | inetAddr cp => cp

/-- The address of the socket is made from the host and the port in a name, and the decimal of its
port is the one in the name. -/
def InetSocket.Uses (s : InetSocket) (name : Bytes) : Prop :=
  IsHostPort name s.sin.sinAddr.text s.port ∧ s.port = fmtInt s.sin.sinPort.toNat

/-- There is no socket, or one with the address in the name, and nothing is written outside. -/
structure UsesAddress (name : Bytes) (r : Except SockError (Option InetSocket)) : Prop where
  uses : ∀ s, r = .ok (some s) → s.Uses name
  inside : r ≠ .error (.fault .outside)

/-- The name ends in the decimal of a port. -/
def EndsInPort (name : Bytes) : Prop :=
  ∃ host, ∃ n : ℕ, n < 2 ^ 16 ∧ IsHostPort name host (fmtInt n)

/-- The endpoint of a name. -/
def endPointOf (name : Bytes) : Bytes := if colon ∈ name then name else colon :: name

/-- The parser finds no colon, or all of an address that ends in the decimal of a port. -/
def ParsedRight (name addr : Bytes) : Prop :=
  colon ∉ addr.take 31 ∨ addr.length ≤ 31 ∧ EndsInPort name

/-- The length of the name or of its endpoint is refused, or the endpoint is parsed right. -/
def ListensRight (name : Bytes) : Prop :=
  intOf (name.length + 1) < 1 ∨ name.length + 1 < 2 ^ 31 ∧
    ((endPointOf name).length + 1 = 2 ^ 31 ∨ ParsedRight name (endPointOf name))

/-! ## Breaking at a colon -/

theorem afterLast_append {host port : Bytes} {c : BitVec 8} (h : c ∉ port) :
    afterLast (host ++ c :: port) c = port := by
  have hall : ∀ d ∈ port.reverse, d ≠ c := fun d hd => ne_of_mem_of_not_mem (by simpa using hd) h
  rw [afterLast, List.reverse_append, List.reverse_cons, List.append_assoc,
    List.takeWhile_append_of_pos (by simpa using hall)]
  simp

theorem splitAtRight_append {host port : Bytes} {c : BitVec 8} (h : c ∉ port) :
    splitAtRight (host ++ c :: port) c = (host, some port) := by
  have hlen : (host ++ c :: port).length - port.length - 1 = host.length := by
    rw [List.length_append, List.length_cons]
    omega
  rw [splitAtRight, if_pos (by simp), afterLast_append h, hlen, List.take_left]

/-- A string with a delimiter has a last one. -/
theorem exists_last {s : Bytes} {c : BitVec 8} (h : c ∈ s) :
    ∃ host port, s = host ++ c :: port ∧ c ∉ port := by
  obtain ⟨port, host, hs, hport⟩ := List.eq_append_cons_of_mem (List.mem_reverse.2 h)
  refine ⟨host.reverse, port.reverse, ?_, by simpa using hport⟩
  rw [← List.reverse_reverse s, hs]
  simp

theorem hostPort_append {host port : Bytes} (h : colon ∉ port) :
    hostPort (host ++ colon :: port) = (host, port) := by
  have hs := @splitAtRight_append host port colon h
  rw [colon] at hs ⊢
  rw [hostPort, hs]

theorem hostPort_of_notMem {name : Bytes} (h : colon ∉ name) : hostPort name = ([], name) := by
  rw [colon] at h
  rw [hostPort, splitAtRight, if_neg h]

/-- `host_port` finds the parts of a name. -/
theorem isHostPort_iff {name host port : Bytes} :
    IsHostPort name host port ↔ hostPort name = (host, port) := by
  constructor
  · rintro ⟨hport, rfl | ⟨hname, rfl, rfl⟩⟩
    · exact hostPort_append hport
    · exact hostPort_of_notMem hname
  · intro h
    by_cases hname : colon ∈ name
    · obtain ⟨host', port', rfl, hport⟩ := exists_last hname
      obtain ⟨rfl, rfl⟩ := Prod.mk.inj ((hostPort_append hport).symm.trans h)
      exact ⟨hport, Or.inl rfl⟩
    · obtain ⟨rfl, rfl⟩ := Prod.mk.inj ((hostPort_of_notMem hname).symm.trans h)
      exact ⟨hname, Or.inr ⟨hname, rfl, rfl⟩⟩

theorem IsHostPort.unique {name host port host' port' : Bytes} (h : IsHostPort name host port)
    (h' : IsHostPort name host' port') : host = host' ∧ port = port' :=
  Prod.mk.inj ((isHostPort_iff.1 h).symm.trans (isHostPort_iff.1 h'))

/-- The endpoint is made from the parts of the name, whether it has a colon or not. -/
theorem IsHostPort.endPointOf {name host port : Bytes} (h : IsHostPort name host port) :
    endPointOf name = host ++ colon :: port := by
  obtain ⟨hport, rfl | ⟨hname, rfl, rfl⟩⟩ := h
  · exact if_pos (by simp)
  · exact if_neg hname

theorem endPointOf_length (name : Bytes) : (endPointOf name).length ≤ name.length + 1 := by
  unfold endPointOf
  split <;> simp

/-! ## Parsing -/

theorem parseAddr_append {addr host port : Bytes} (h : addr.take 31 = host ++ colon :: port)
    (hport : colon ∉ port) : parseAddr addr = some (host, port) := by
  rw [parseAddr, h, splitAtRight_append hport]

theorem parseAddr_of_notMem {addr : Bytes} (h : colon ∉ addr.take 31) : parseAddr addr = none := by
  rw [parseAddr, splitAtRight, if_neg h]

theorem parseAddr_some {addr host port : Bytes} (h : parseAddr addr = some (host, port)) :
    addr.take 31 = host ++ colon :: port ∧ colon ∉ port := by
  by_cases hmem : colon ∈ addr.take 31
  · obtain ⟨host', port', hs, hport⟩ := exists_last hmem
    obtain ⟨rfl, rfl⟩ := Prod.mk.inj (Option.some.inj ((parseAddr_append hs hport).symm.trans h))
    exact ⟨hs, hport⟩
  · rw [parseAddr_of_notMem hmem] at h
    cases h

/-- The decimal of a port is read back. -/
theorem portOf_fmtInt {n : ℕ} (h : n < 2 ^ 16) : (portOf (fmtInt n)).toNat = n := by
  have hnum : Numeral (digitsOf 10 n) := ⟨by simp [digitsOf], fun c hc => isDigit_of_mem hc⟩
  have hvalue := digitsValue_digitsOf n
  have hatoi : atoi (fmtInt n) = n := by
    rw [fmtInt_natCast, atoi_numeral hnum (by omega), hvalue]
  rw [portOf, hatoi, BitVec.ofInt_natCast, BitVec.toNat_ofNat, Nat.mod_eq_of_lt h]

/-- An address is parsed right if and only if what the parser finds is in the name. -/
theorem parsedRight_iff {name addr host port : Bytes} (h : IsHostPort name host port)
    (haddr : addr = host ++ colon :: port) : ParsedRight name addr ↔
      ∀ host' port', parseAddr addr = some (host', port') →
        IsHostPort name host' port' ∧ port' = fmtInt (portOf port').toNat := by
  constructor
  · rintro (hmem | ⟨hlen, host₀, n, hn, hname⟩) host' port' hparse
    · rw [parseAddr_of_notMem hmem] at hparse
      cases hparse
    · -- the buffer holds the address, and its parts are those of the name
      obtain ⟨hs, hport⟩ := parseAddr_some hparse
      rw [List.take_of_length_le hlen, haddr] at hs
      obtain ⟨rfl, rfl⟩ := Prod.mk.inj
        ((hostPort_append h.1).symm.trans ((congrArg hostPort hs).trans (hostPort_append hport)))
      obtain ⟨-, rfl⟩ := h.unique hname
      exact ⟨h, by rw [portOf_fmtInt hn]⟩
  · intro hall
    by_cases hmem : colon ∈ addr.take 31
    · obtain ⟨host', port', hs, hport⟩ := exists_last hmem
      obtain ⟨hname, hdec⟩ := hall _ _ (parseAddr_append hs hport)
      obtain ⟨rfl, rfl⟩ := h.unique hname
      have hwhole : (addr.take 31).length = addr.length :=
        congrArg List.length (hs.trans haddr.symm)
      rw [List.length_take] at hwhole
      exact Or.inr ⟨by omega, host, _, BitVec.isLt _, hdec ▸ h⟩
    · exact Or.inl hmem

/-! ## The code around the parser -/

section Outcomes

variable {sys : SockAnswers} {name : Bytes} {call : SockCall}

theorem usesAddress_error {e : SockError} (h : e ≠ .fault .outside) :
    UsesAddress name (.error e) :=
  ⟨fun _ he => (by cases he), fun he => h (Except.error.inj he)⟩

theorem usesAddress_none : UsesAddress name (.ok none) :=
  ⟨fun _ he => (by cases he), fun he => (by cases he)⟩

theorem usesAddress_some {s : InetSocket} (h : s.Uses name) : UsesAddress name (.ok (some s)) :=
  ⟨fun _ he => Option.some.inj (Except.ok.inj he) ▸ h, fun he => (by cases he)⟩

theorem usesAddress_checkCall {result : ℤ} {f : Unit → Except SockError (Option InetSocket)}
    (h : UsesAddress name (f ())) : UsesAddress name (checkCall call result >>= f) := by
  unfold checkCall
  split
  · exact usesAddress_error SockError.noConfusion
  · exact h

theorem usesAddress_setNonBlocking {fd on : ℤ} {f : Unit → Except SockError (Option InetSocket)}
    (h : UsesAddress name (f ())) : UsesAddress name (setNonBlocking sys fd on >>= f) := by
  rw [setNonBlocking, bind_assoc]
  exact usesAddress_checkCall (usesAddress_checkCall h)

theorem usesAddress_closeOnExec {fd on : ℤ} {f : Unit → Except SockError (Option InetSocket)}
    (h : UsesAddress name (f ())) : UsesAddress name (closeOnExec sys fd on >>= f) := by
  rw [closeOnExec, bind_assoc]
  exact usesAddress_checkCall (usesAddress_checkCall h)

/-- Code that handles memory may panic before a socket is opened. -/
theorem usesAddress_liftFault {α : Type} {x : Except Fault α}
    {f : α → Except SockError (Option InetSocket)} (hx : x ≠ .error .outside)
    (h : ∀ a, x = .ok a → UsesAddress name (f a)) : UsesAddress name (liftFault x >>= f) := by
  cases x with
  | ok a => exact h a rfl
  | error e => exact usesAddress_error fun he => hx (congrArg _ (SockError.fault.inj he))

/-- The text of a host address. -/
theorem text_ite (host : Bytes) :
    (if host ≠ [] then InAddr.inetAddr host else .inaddrAny).text = host := by
  by_cases hhost : host = []
  · rw [if_neg (not_not.2 hhost), hhost]
    rfl
  · rw [if_pos hhost]
    rfl

/-- A listener has the address that is parsed. -/
theorem inetListen_uses {addr : Bytes} {backlog blockMode : ℤ}
    (h : ∀ host port, parseAddr addr = some (host, port) →
      IsHostPort name host port ∧ port = fmtInt (portOf port).toNat) :
    UsesAddress name (inetListen sys (some addr) backlog blockMode) := by
  rw [inetListen, Option.bind_some]
  cases hparse : parseAddr addr with
  | none => exact usesAddress_none
  | some parts =>
    obtain ⟨host, port⟩ := parts
    refine usesAddress_checkCall (usesAddress_checkCall (usesAddress_checkCall
      (usesAddress_setNonBlocking (usesAddress_checkCall ?_))))
    exact usesAddress_some ⟨(text_ite host).symm ▸ (h _ _ hparse).1, (h _ _ hparse).2⟩

/-- Connecting goes on for ever at worst. -/
theorem timedConnect_error {sock timeout : ℤ} {sa : SockaddrIn} {e : SockError}
    (h : timedConnect sys sock sa timeout = .error e) : e = .waiting := by
  unfold timedConnect at h
  split at h
  · cases h
  · split at h
    · cases h
    · split at h
      · cases h
      · split at h
        · exact (Except.error.inj h).symm
        · split at h <;> cases h

theorem inetConnect_uses {addr : Bytes} {blockMode timeout : ℤ}
    (h : ∀ host port, parseAddr addr = some (host, port) →
      IsHostPort name host port ∧ port = fmtInt (portOf port).toNat) :
    UsesAddress name (inetConnect sys (some addr) blockMode timeout) := by
  rw [inetConnect, Option.bind_some]
  cases hparse : parseAddr addr with
  | none => exact usesAddress_none
  | some parts =>
    obtain ⟨host, port⟩ := parts
    have huses := h _ _ hparse
    replace huses : UsesAddress name
        (.ok (some ⟨sys.socket, ⟨.inetAddr host, portOf port⟩, port⟩)) := usesAddress_some huses
    refine usesAddress_checkCall ?_
    by_cases ht : timeout > 0
    · rw [if_pos ht]
      refine usesAddress_setNonBlocking ?_
      cases htimed : timedConnect sys sys.socket ⟨.inetAddr host, portOf port⟩ timeout with
      | error e =>
        obtain rfl := timedConnect_error htimed
        exact usesAddress_error SockError.noConfusion
      | ok connected =>
        by_cases hc : connected < 0
        · simp only [bind, Except.bind, if_pos hc]
          exact usesAddress_none
        · simp only [bind, Except.bind, if_neg hc]
          split
          · exact usesAddress_setNonBlocking huses
          · exact huses
    · rw [if_neg ht]
      refine usesAddress_setNonBlocking ?_
      split
      · exact usesAddress_none
      · exact huses

theorem usesAddress_bind {x : Except SockError (Option InetSocket)}
    {f : Option InetSocket → Except SockError (Option InetSocket)} (hx : UsesAddress name x)
    (h : ∀ s, UsesAddress name (.ok s) → UsesAddress name (f s)) : UsesAddress name (x >>= f) := by
  cases x with
  | error e => exact hx
  | ok s => exact h s hx

theorem myfree_ne_outside (h : Heap) (ptr : Ptr) : myfree h ptr ≠ .error .outside := by
  intro he
  obtain hin | ⟨b, -, hf⟩ := bind_error_iff.1 he
  · unfold checkInPtr at hin
    split at hin
    · cases hin
    · split at hin
      · cases hin
      · split at hin
        · cases hin
        · split at hin <;> cases hin
  · cases hf

end Outcomes

/-! ## From a name to its listener -/

section Names

variable {name host port : Bytes} (h : Heap)

/-- A name that is too long is refused, or written outside its copy. -/
theorem entHostPort_long (hlen : 2 ^ 31 ≤ name.length + 1) : entHostPort h name =
    if intOf (name.length + 1) < 1 then
      .error (.panic (.requestedLength "mymalloc" (intOf (name.length + 1))))
    else .error .outside := by
  have hne : name ≠ [] := by
    rintro rfl
    simp at hlen
  have hlt : intOf (name.length + 1) < (name ++ [0]).length := by
    rw [List.length_append, List.length_singleton]
    exact intOf_lt (by omega)
  rw [entHostPort, mystrdup]
  simp only [if_neg hne, mallocStore_eq, if_pos hlt]
  split <;> rfl

/-- A shorter one is taken apart. -/
theorem entHostPort_short (hlen : name.length + 1 < 2 ^ 31) (hname : IsHostPort name host port) :
    ∃ h', entHostPort h name = .ok (⟨if host ≠ [] then some host else none, port⟩, h') := by
  have hparts : host.length + 1 < 2 ^ 31 ∧ port.length + 1 < 2 ^ 31 := by
    have he := congrArg List.length hname.endPointOf
    have hle := endPointOf_length name
    rw [List.length_append, List.length_cons] at he
    omega
  obtain ⟨⟨p₁, h₁⟩, hr₁⟩ := (mystrdup_isOk h name).2 hlen
  obtain ⟨⟨p₂, h₂⟩, hr₂⟩ := (mystrdup_isOk h₁ host).2 hparts.1
  rw [entHostPort, hr₁]
  simp only [isHostPort_iff.1 hname]
  by_cases hhost : host = []
  · obtain ⟨⟨p₃, h₃⟩, hr₃⟩ := (mystrdup_isOk h₁ port).2 hparts.2
    refine ⟨h₃, ?_⟩
    simp only [if_neg (not_not.2 hhost), bind, Except.bind, pure, Except.pure, hr₃]
  · obtain ⟨⟨p₃, h₃⟩, hr₃⟩ := (mystrdup_isOk h₂ port).2 hparts.2
    refine ⟨h₃, ?_⟩
    simp only [if_pos hhost, bind, Except.bind, pure, Except.pure, hr₂, hr₃]

/-- The parts are put together to the endpoint of the name. -/
theorem endPointText_eq (hname : IsHostPort name host port) :
    endPointText ⟨if host ≠ [] then some host else none, port⟩ = endPointOf name := by
  rw [hname.endPointOf, endPointText, concatenate]
  by_cases hhost : host = []
  · simp [hhost]
  · simp [hhost]

/-- An endpoint that is too long by one is refused. -/
theorem listenEndPoint_long {sys : SockAnswers} {serv : EndPoint} {maxProc : ℤ}
    (hlen : (endPointText serv).length + 1 = 2 ^ 31) :
    listenEndPoint sys h serv maxProc =
      .error (.fault (.panic (.requestedLength "mymalloc" (-2 ^ 31)))) := by
  have hint : intOf ((endPointText serv).length + 1) = -2 ^ 31 := by
    have hz : ((endPointText serv).length : ℤ) + 1 = 2 ^ 31 := by exact_mod_cast hlen
    rw [hz]
    decide
  rw [listenEndPoint, hint, mallocStore_eq, if_pos (by decide)]
  rfl

/-- The copy of a shorter one is there until it is released. -/
theorem endPoint_copy (text : Bytes) (hlen : text.length + 1 < 2 ^ 31) :
    ∃ p h' h'', mallocStore h (intOf (text.length + 1)) (text ++ [0]) = .ok (p, h') ∧
      myfree h' p = .ok h'' := by
  have hcast : ((text ++ [0]).length : ℤ) = text.length + 1 := by simp
  have hstored := (mallocStore_isOk h (List.append_ne_nil_of_right_ne_nil text
    (List.cons_ne_nil (0 : BitVec 8) []))).2 (by rwa [List.length_append, List.length_singleton])
  rw [hcast] at hstored
  obtain ⟨⟨p, h'⟩, hr⟩ := hstored
  have howns := (Heap.owns_nil h).fresh (mallocStore_ok hr)
  exact ⟨p, h', _, hr, howns.myfree.1⟩

/-- A short name is listened to at its endpoint. -/
theorem listenName_short (sys : SockAnswers) (maxProc : ℤ) (hlen : name.length + 1 < 2 ^ 31) :
    ∃ h' serv, endPointText serv = endPointOf name ∧
      listenName sys h name maxProc = listenEndPoint sys h' serv maxProc := by
  obtain ⟨host, port, hname⟩ : ∃ host port, IsHostPort name host port :=
    ⟨_, _, isHostPort_iff.2 rfl⟩
  obtain ⟨h', hent⟩ := entHostPort_short h hlen hname
  refine ⟨h', _, endPointText_eq hname, ?_⟩
  simp only [listenName, hent, liftFault, bind, Except.bind]

theorem listenName_long (sys : SockAnswers) (maxProc : ℤ) (hlen : 2 ^ 31 ≤ name.length + 1) :
    ∃ f, listenName sys h name maxProc = .error (.fault f) ∧
      (f ≠ .outside ↔ intOf (name.length + 1) < 1) := by
  rw [listenName, entHostPort_long h hlen]
  by_cases hint : intOf (name.length + 1) < 1
  · rw [if_pos hint]
    exact ⟨_, rfl, iff_of_true Fault.noConfusion hint⟩
  · rw [if_neg hint]
    exact ⟨_, rfl, iff_of_false (not_not.2 rfl) hint⟩

/-- What is parsed right is listened to. -/
theorem listenEndPoint_uses {sys : SockAnswers} {serv : EndPoint} {maxProc : ℤ}
    (hlen : (endPointText serv).length + 1 < 2 ^ 31)
    (hparse : ∀ host port, parseAddr (endPointText serv) = some (host, port) →
      IsHostPort name host port ∧ port = fmtInt (portOf port).toNat) :
    UsesAddress name (listenEndPoint sys h serv maxProc) := by
  obtain ⟨p, h', h'', hstore, hfree⟩ := endPoint_copy h (endPointText serv) hlen
  simp only [listenEndPoint, hstore, liftFault_ok_bind]
  refine usesAddress_bind (inetListen_uses hparse) fun s hs => usesAddress_closeOnExec ?_
  exact usesAddress_liftFault (myfree_ne_outside h' p) fun _ _ => hs

end Names

/-! ## When every call succeeds -/

/-- No system call fails. -/
def allSucceed : SockAnswers where
  socket := 0
  setsockopt _ := 0
  bind _ _ := 0
  listen _ _ := 0
  connect _ _ := (0, 0)
  polls := []
  getsockopt _ := (0, 0)
  getfl _ := 0
  setfl _ _ _ := 0
  getfd _ := 0
  setfd _ _ _ := 0

theorem inetListen_allSucceed {addr host port : Bytes} (backlog blockMode : ℤ)
    (hparse : parseAddr addr = some (host, port)) :
    inetListen allSucceed (some addr) backlog blockMode = .ok (some
      ⟨0, ⟨if host ≠ [] then .inetAddr host else .inaddrAny, portOf port⟩, port⟩) := by
  rw [inetListen, Option.bind_some, hparse]
  rfl

theorem inetConnect_allSucceed {addr host port : Bytes} (blockMode : ℤ)
    (hparse : parseAddr addr = some (host, port)) :
    inetConnect allSucceed (some addr) blockMode 0 =
      .ok (some ⟨0, ⟨.inetAddr host, portOf port⟩, port⟩) := by
  rw [inetConnect, Option.bind_some, hparse]
  rfl

/-- A listener is opened at what the parser finds. -/
theorem listenEndPoint_allSucceed {h : Heap} {serv : EndPoint} {maxProc : ℤ} {host port : Bytes}
    (hlen : (endPointText serv).length + 1 < 2 ^ 31)
    (hparse : parseAddr (endPointText serv) = some (host, port)) :
    listenEndPoint allSucceed h serv maxProc = .ok (some
      ⟨0, ⟨if host ≠ [] then .inetAddr host else .inaddrAny, portOf port⟩, port⟩) := by
  obtain ⟨p, h', h'', hstore, hfree⟩ := endPoint_copy h (endPointText serv) hlen
  rw [listenEndPoint, hstore, liftFault_ok_bind, inetListen_allSucceed _ _ hparse]
  simp only [bind, Except.bind, hfree]
  rfl

/-! ## The address that is used -/

theorem listenName_iff (name : Bytes) :
    (∀ sys h maxProc, UsesAddress name (listenName sys h name maxProc)) ↔ ListensRight name := by
  by_cases hlong : 2 ^ 31 ≤ name.length + 1
  · constructor
    · intro hall
      obtain ⟨f, hf, hiff⟩ := listenName_long heapInit allSucceed 0 hlong
      have huses := hall allSucceed heapInit 0
      rw [hf] at huses
      exact Or.inl (hiff.1 fun hout => huses.inside (hout ▸ rfl))
    · rintro (hint | ⟨hshort, -⟩) sys h maxProc
      · obtain ⟨f, hf, hiff⟩ := listenName_long h sys maxProc hlong
        rw [hf]
        exact usesAddress_error fun hout => hiff.2 hint (SockError.fault.inj hout)
      · omega
  · obtain ⟨host, port, hname⟩ : ∃ host port, IsHostPort name host port :=
      ⟨_, _, isHostPort_iff.2 rfl⟩
    have hshort : name.length + 1 < 2 ^ 31 := Nat.lt_of_not_le hlong
    have hnot : ¬intOf (name.length + 1) < 1 := by
      rw [intOf_eq (by omega) (by omega)]
      omega
    have hend := endPointOf_length name
    rw [ListensRight, or_iff_right hnot, and_iff_right hshort]
    by_cases hmax : (endPointOf name).length + 1 = 2 ^ 31
    · refine iff_of_true (fun sys h maxProc => ?_) (Or.inl hmax)
      obtain ⟨h', serv, htext, heq⟩ := listenName_short h sys maxProc hshort
      have hlen : (endPointText serv).length + 1 = 2 ^ 31 := by
        rw [htext]
        exact hmax
      rw [heq, listenEndPoint_long h' hlen]
      exact usesAddress_error fun hout => Fault.noConfusion (SockError.fault.inj hout)
    · rw [or_iff_right hmax, parsedRight_iff hname hname.endPointOf]
      constructor
      · intro hall host' port' hparse
        obtain ⟨h', serv, htext, heq⟩ := listenName_short heapInit allSucceed 0 hshort
        have huses := hall allSucceed heapInit 0
        rw [heq, listenEndPoint_allSucceed (by rw [htext]; omega) (htext ▸ hparse)] at huses
        obtain ⟨hparts, hdec⟩ := huses.uses _ rfl
        exact ⟨text_ite host' ▸ hparts, hdec⟩
      · intro hparse sys h maxProc
        obtain ⟨h', serv, htext, heq⟩ := listenName_short h sys maxProc hshort
        rw [heq]
        exact listenEndPoint_uses h' (by rw [htext]; omega) (htext ▸ hparse)

theorem inetConnect_iff (addr : Bytes) :
    (∀ sys blockMode timeout, UsesAddress addr (inetConnect sys (some addr) blockMode timeout)) ↔
      ParsedRight addr addr := by
  by_cases hmem : colon ∈ addr
  · obtain ⟨host, port, haddr, hport⟩ := exists_last hmem
    rw [parsedRight_iff ⟨hport, Or.inl haddr⟩ haddr]
    constructor
    · intro hall host' port' hparse
      have huses := hall allSucceed 0 0
      rw [inetConnect_allSucceed 0 hparse] at huses
      exact huses.uses _ rfl
    · exact fun hparse sys blockMode timeout => inetConnect_uses hparse
  · have htake : colon ∉ addr.take 31 := fun h => hmem (List.mem_of_mem_take h)
    refine iff_of_true (fun sys blockMode timeout => inetConnect_uses fun host port hparse => ?_)
      (Or.inl htake)
    rw [parseAddr_of_notMem htake] at hparse
    cases hparse

end Nowra
