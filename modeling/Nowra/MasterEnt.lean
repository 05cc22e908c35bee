import Nowra.Argv
import Nowra.Operation

/-!
# Entries of the configuration file

`master_ent.c` : `get_master_ent` reads the file line by line, skips blank and comment lines, and
takes the fields of an entry off the line. `masterEntOfLine` is the entry with the values of its
fields, `EntLine.masterArgs` is the command line for the child, `EntLine.toEnt` is the entry as
the process manager sees it, and `storeMasterEnt` allocates it.

The fields of an accepted line are tokens, so they are not empty, and neither is an argument of
the command line (`masterArgs_ne_nil`). The port can be empty, and then `free_master_ent` frees
the shared empty string (`freeMasterEnt_isOk`).
-/

namespace Nowra

/-! ## Reading a line -/

/-- `master_blanks` -/
def masterBlanks : Bytes := cstr " \t\r\n"

/-- `var_proc_limit` -/
def varProcLimit : ℤ := 1

/-- `var_daemon_dir` -/
def varDaemonDir : Bytes := cstr "./"

/-- `MASTER_XPORT_NAME_INET` -/
def masterXportNameInet : Bytes := cstr "inet"

/-- What is passed to `fatal_with_context`. -/
inductive EntError
  /-- `missing "%s" field` -/
  | missingField (name : String)
  /-- `field "%s" has no default value` -/
  | noDefaultValue (name : String)
  /-- `field "%s": bad value: "%s"` -/
  | badValue (name : String) (value : Bytes)
  /-- `bad transport type: %s` -/
  | badTransportType (transport : Bytes)
  deriving DecidableEq

/-- `isspace` -/
def isSpace (c : BitVec 8) : Bool := c = 32#8 ∨ 9#8 ≤ c ∧ c ≤ 13#8

/-- `isdigit` -/
def isDigit (c : BitVec 8) : Bool := 48#8 ≤ c ∧ c ≤ 57#8

/-- The value of digits. -/
def digitsValue (s : Bytes) : ℕ := s.foldl (fun n c => 10 * n + (c.toNat - 48)) 0

/-- `strtol` in base ten. A value out of range is the nearest `long`. -/
def strtol (s : Bytes) : ℤ :=
  let s := s.dropWhile isSpace
  let value := fun (s : Bytes) => (digitsValue (s.takeWhile isDigit) : ℤ)
  let n := if s.head? = some 45#8 then -value s.tail
    else if s.head? = some 43#8 then value s.tail else value s
  max (-2 ^ 63) (min n (2 ^ 63 - 1))

/-- `atoi` -/
def atoi (s : Bytes) : ℤ := intOf (strtol s)

/-- `"%d"` -/
def fmtInt (n : ℤ) : Bytes := cstr (toString n)

/-- Extract a string field. Returns its value and the rest of the line. -/
def getStrEnt (bufp : Bytes) (name : String) (defVal : Option Bytes) :
    Except EntError (Bytes × Bytes) :=
  match mystrtok bufp masterBlanks with
  | (none, _) => throw (.missingField name)
  | (some value, bufp) =>
    if value = cstr "-" then
      match defVal with
      | none => throw (.noDefaultValue name)
      | some defVal => pure (defVal, bufp)
    else pure (value, bufp)

/-- Extract an integer field. -/
def getIntEnt (bufp : Bytes) (name : String) (defVal : Bytes) (minVal : ℤ) :
    Except EntError ({n : ℤ // minVal ≤ n} × Bytes) := do
  let (value, bufp) ← getStrEnt bufp name (some defVal)
  if h : minVal ≤ atoi value then pure (⟨atoi value, h⟩, bufp)
  else throw (.badValue name value)

/-- The values of the fields of a line. -/
structure EntLine where
  name : Bytes
  transport : Bytes
  host : Bytes
  port : Bytes
  wakeupTime : {n : ℤ // 0 ≤ n}
  condwake : Bool
  maxProc : {n : ℤ // 0 ≤ n}
  command : Bytes
  /-- The command-line arguments at the end of the line. -/
  args : List Bytes

/-- Parse a line behind its first token `cp`. The flag for a conditional wake-up is read from the
memory in front of `buf` : `before` is what lies one byte and two bytes before it. -/
def masterEntOfLine (before : BitVec 8 × BitVec 8) (buf cp bufp : Bytes) :
    Except EntError EntLine := do
  let name := cp
  let (transport, bufp) ← getStrEnt bufp "transport type" none
  if transport ≠ masterXportNameInet then throw (.badTransportType transport)
  let (host, port) := hostPort name
  let (wakeupTime, bufp) ← getIntEnt bufp "wakeup_time" (cstr "0") 0
  let condwake := 0 < wakeupTime.val ∧
    (if buf.headD 0 ≠ 0 then before.2 else before.1) = BitVec.ofNat 8 '?'.toNat
  let (maxProc, bufp) ← getIntEnt bufp "max_proc" (fmtInt varProcLimit) 0
  let (command, bufp) ← getStrEnt bufp "command" none
  pure
    { name := name, transport := transport, host := host, port := port, wakeupTime := wakeupTime
      condwake := condwake, maxProc := maxProc, command := command
      args := strtokAll masterBlanks bufp }

/-- Read a line into a buffer. The string ends before a null byte. -/
def fgets (size : ℕ) (fp : Bytes) : Option (Bytes × Bytes) :=
  if fp = [] then none
  else
    let n := min ((fp.takeWhile (· ≠ BitVec.ofNat 8 '\n'.toNat)).length + 1) (size - 1)
    some ((fp.take n).takeWhile (· ≠ 0), fp.drop n)

/-- A line with its first token, the rest of the line, and the rest of the file. -/
structure EntStart where
  buf : Bytes
  cp : Bytes
  bufp : Bytes
  fp : Bytes

/-- Skip blank lines and comment lines. Each line takes a byte off the file at least. -/
def skipLines : ℕ → Bytes → Option EntStart
  | 0, _ => none
  | n + 1, fp =>
    match fgets 1024 fp with
    | none => none
    | some (buf, fp) =>
      match mystrtok buf masterBlanks with
      | (none, _) => skipLines n fp
      | (some cp, bufp) =>
        if cp.head? = some (BitVec.ofNat 8 '#'.toNat) then skipLines n fp
        else some ⟨buf, cp, bufp, fp⟩

/-- Read an entry. Returns it with the rest of the file, nothing at the end of the file. -/
def readMasterEnt (before : BitVec 8 × BitVec 8) (fp : Bytes) :
    Except EntError (Option (EntLine × Bytes)) :=
  match skipLines fp.length fp with
  | none => pure none
  | some s => do
    let line ← masterEntOfLine before s.buf s.cp s.bufp
    pure (some (line, s.fp))

/-- The line is one that `get_master_ent` accepts. -/
def EntLine.Accepted (line : EntLine) : Prop :=
  ∃ before fp fp', readMasterEnt before fp = .ok (some (line, fp'))

/-! ## The entry -/

namespace EntLine

/-- The command-line vector. The service name is added if the base name of the command differs,
the transport always. -/
def masterArgs (line : EntLine) : List Bytes :=
  [line.command] ++
  (if line.maxProc.val = 1 then [cstr "-l"] else []) ++
  (if basename line.command ≠ line.name then [cstr "-n", line.name] else []) ++
  [cstr "-t", line.transport] ++ line.args

/-- The path to the command. -/
def path (line : EntLine) : Bytes := concatenate [varDaemonDir, cstr "/", line.command]

/-- Bytes as text. -/
def text (s : Bytes) : String := String.ofList (s.map fun c => Char.ofNat c.toNat)

/-- The entry as the process manager reads it. -/
def toEnt (line : EntLine) : MasterEnt where
  name := text line.name
  inethost := line.host ≠ []
  wakeupTime := line.wakeupTime.val
  condwake := line.condwake
  maxProc := line.maxProc.val
  path := text line.path
  args := line.masterArgs.map text
  maxProc_nonneg := line.maxProc.property
  wakeupTime_nonneg := line.wakeupTime.property

end EntLine

/-- The pointers of an entry. -/
structure MasterEntPtrs where
  self : Ptr
  /-- Nothing is a null pointer. -/
  host : Option Ptr
  port : Ptr
  name : Ptr
  path : Ptr
  args : Argv

/-- `sizeof(VSTRING)` -/
def sizeofVstring : ℤ := 72

/-- `sizeof(MASTER_SERV)` -/
def sizeofMasterServ : ℤ := 112

/-- What `get_master_ent` allocates for an entry, in order. The copy that `host_port` makes of the
address is not freed. -/
def storeMasterEnt (h : Heap) (line : EntLine) : Except Fault (MasterEntPtrs × Heap) := do
  let (junk, h) ← mymalloc h sizeofVstring
  let (data, h) ← mymalloc h 100
  let (serv, h) ← mymalloc h sizeofMasterServ
  let (_, h) ← mystrdup h (some line.name)
  let (host, h) ← (if line.host ≠ [] then do
      let (host, h) ← mystrdup h (some line.host)
      pure (some host, h)
    else pure (none, h))
  let (port, h) ← mystrdup h (some line.port)
  let (name, h) ← mystrdup h (some line.name)
  let (path, h) ← mallocStore h (intOf (line.path.length + 1)) (line.path ++ [0])
  let (args, h) ← argvOf h 0 line.masterArgs
  argvTerminate args
  let h ← myfree h data
  let h ← myfree h junk
  pure (⟨serv, host, port, name, path, args⟩, h)

/-- Destroy an entry. -/
def freeMasterEnt (h : Heap) (serv : MasterEntPtrs) : Except Fault Heap := do
  let h ← (match serv.host with
    | none => pure h
    | some host => myfree h host)
  let h ← myfree h serv.port
  let h ← myfree h serv.name
  let h ← myfree h serv.path
  let h ← argvFree h serv.args
  myfree h serv.self

/-! ## Accepted lines -/

/-- A field is a token, or the default. -/
theorem getStrEnt_ne_nil {bufp value rest : Bytes} {name : String} {defVal : Option Bytes}
    (h : getStrEnt bufp name defVal = .ok (value, rest)) (hdef : defVal ≠ some []) :
    value ≠ [] := by
  unfold getStrEnt at h
  cases hm : mystrtok bufp masterBlanks with
  | mk tok bufp' =>
    rw [hm] at h
    cases tok with
    | none => cases h
    | some tok =>
      simp only at h
      split at h
      · cases defVal with
        | none => cases h
        | some d =>
          obtain ⟨rfl, -⟩ := Prod.mk.inj (Except.ok.inj h)
          simpa using hdef
      · obtain ⟨rfl, -⟩ := Prod.mk.inj (Except.ok.inj h)
        exact (mystrtok_spec hm).1

/-- The first token of a line is no empty string. -/
theorem skipLines_ne_nil {n : ℕ} : ∀ {fp : Bytes} {s : EntStart}, skipLines n fp = some s →
    s.cp ≠ [] := by
  induction n with
  | zero => exact fun h => absurd h (by simp [skipLines])
  | succ n ih =>
    intro fp s h
    rw [skipLines] at h
    split at h
    · cases h
    · split at h
      · exact ih h
      · rename_i hm
        split at h
        · exact ih h
        · obtain rfl := Option.some.inj h
          exact (mystrtok_spec hm).1

/-- The fields of a line, one after the other. -/
theorem masterEntOfLine_ok {before : BitVec 8 × BitVec 8} {buf cp bufp : Bytes} {line : EntLine}
    (h : masterEntOfLine before buf cp bufp = .ok line) :
    line.name = cp ∧ line.transport = masterXportNameInet ∧ (line.host, line.port) = hostPort cp ∧
      line.command ≠ [] ∧ ∀ arg ∈ line.args, arg ≠ [] := by
  unfold masterEntOfLine at h
  obtain ⟨⟨transport, bufp₁⟩, -, h⟩ := bind_ok_iff.1 h
  by_cases ht : transport = masterXportNameInet
  · simp only [ht, ne_eq, not_true, if_false] at h
    obtain ⟨⟨wakeup, bufp₂⟩, -, h⟩ := bind_ok_iff.1 h
    obtain ⟨⟨limit, bufp₃⟩, -, h⟩ := bind_ok_iff.1 h
    obtain ⟨⟨command, bufp₄⟩, hcommand, h⟩ := bind_ok_iff.1 h
    obtain rfl := Except.ok.inj h
    exact ⟨rfl, rfl, rfl, getStrEnt_ne_nil hcommand (by simp), strtokAll_ne_nil⟩
  · simp only [ne_eq, ht, not_false_eq_true, if_true] at h
    cases h

namespace EntLine

theorem Accepted.fields {line : EntLine} (h : line.Accepted) :
    line.name ≠ [] ∧ line.transport = masterXportNameInet ∧
      (line.host, line.port) = hostPort line.name ∧ line.command ≠ [] ∧
      ∀ arg ∈ line.args, arg ≠ [] := by
  obtain ⟨before, fp, fp', h⟩ := h
  unfold readMasterEnt at h
  cases hs : skipLines fp.length fp with
  | none => simp [hs] at h; cases h
  | some s =>
    rw [hs] at h
    obtain ⟨l, hl, h⟩ := bind_ok_iff.1 h
    obtain ⟨rfl, -⟩ := Prod.mk.inj (Option.some.inj (Except.ok.inj h))
    obtain ⟨hname, ht, hhost, hcommand, hargs⟩ := masterEntOfLine_ok hl
    rw [hname]
    exact ⟨skipLines_ne_nil hs, ht, hhost, hcommand, hargs⟩

/-- No argument of the command line is empty. -/
theorem Accepted.masterArgs_ne_nil {line : EntLine} (h : line.Accepted) :
    [] ∉ line.masterArgs := by
  obtain ⟨hname, ht, -, hcommand, hargs⟩ := h.fields
  have hmem : [] ∉ line.args := fun hm => hargs [] hm rfl
  unfold masterArgs
  rw [ht]
  split <;> split <;>
    simp [hmem, hname.symm, hcommand.symm, cstr, masterXportNameInet]

end EntLine

/-! ## Freeing an entry -/

/-- The pointers in the order in which `free_master_ent` frees them. -/
def MasterEntPtrs.ptrs (serv : MasterEntPtrs) : List Ptr :=
  serv.host.toList ++ [serv.port, serv.name, serv.path] ++ serv.args.elems ++
    [serv.args.argv, serv.args.self, serv.self]

theorem freeMasterEnt_eq (h : Heap) (serv : MasterEntPtrs) :
    freeMasterEnt h serv = serv.ptrs.foldlM myfree h := by
  cases hhost : serv.host <;>
    simp [freeMasterEnt, MasterEntPtrs.ptrs, argvFree, hhost, List.foldlM_append,
      List.foldlM_cons, bind_assoc]

/-- A new entry owns its blocks, all but the shared empty strings in it. -/
theorem storeMasterEnt_owns {h h' : Heap} {line : EntLine} {serv : MasterEntPtrs}
    (hr : storeMasterEnt h line = .ok (serv, h')) :
    (∃ buf, h'.Owns ((serv.ptrs ++ [buf]).filter (· ≠ Ptr.emptyString))) ∧
      (Ptr.emptyString ∈ serv.ptrs ↔ line.port = [] ∨ line.name = [] ∨ [] ∈ line.masterArgs) := by
  obtain ⟨⟨junk, h₁⟩, hjunk, hr⟩ := bind_ok_iff.1 hr
  obtain ⟨⟨data, h₂⟩, hdata, hr⟩ := bind_ok_iff.1 hr
  obtain ⟨⟨self, h₃⟩, hself, hr⟩ := bind_ok_iff.1 hr
  obtain ⟨⟨buf, h₄⟩, hbuf, hr⟩ := bind_ok_iff.1 hr
  obtain ⟨⟨host, h₅⟩, hhost, hr⟩ := bind_ok_iff.1 hr
  obtain ⟨⟨port, h₆⟩, hport, hr⟩ := bind_ok_iff.1 hr
  obtain ⟨⟨name, h₇⟩, hname, hr⟩ := bind_ok_iff.1 hr
  obtain ⟨⟨path, h₈⟩, hpath, hr⟩ := bind_ok_iff.1 hr
  obtain ⟨⟨args, h₉⟩, hargs, hr⟩ := bind_ok_iff.1 hr
  obtain ⟨-, -, hr⟩ := bind_ok_iff.1 hr
  obtain ⟨h₁₀, hfree₁, hr⟩ := bind_ok_iff.1 hr
  obtain ⟨h₁₁, hfree₂, hr⟩ := bind_ok_iff.1 hr
  obtain ⟨rfl, rfl⟩ := Prod.mk.inj (Except.ok.inj hr)
  have ho₀ : h.Owns (([] : List Ptr).filter (· ≠ Ptr.emptyString)) := h.owns_nil
  obtain ⟨hjunk', ho₁⟩ := ho₀.alloc (mymalloc_ok hjunk)
  obtain ⟨hdata', ho₂⟩ := ho₁.alloc (mymalloc_ok hdata)
  obtain ⟨hself', ho₃⟩ := ho₂.alloc (mymalloc_ok hself)
  have ho₄ := (ho₃.strdup hbuf).2
  have hhost' : Ptr.emptyString ∉ host.toList ∧
      h₅.Owns ((host.toList ++ [buf, self, data, junk]).filter (· ≠ .emptyString)) := by
    by_cases hne : line.host = []
    · simp only [hne, ne_eq, not_true, if_false] at hhost
      obtain ⟨rfl, rfl⟩ := Prod.mk.inj (Except.ok.inj hhost)
      exact ⟨by simp, ho₄⟩
    · simp only [ne_eq, hne, not_false_eq_true, if_true] at hhost
      obtain ⟨⟨p, g⟩, hp, hhost⟩ := bind_ok_iff.1 hhost
      obtain ⟨rfl, rfl⟩ := Prod.mk.inj (Except.ok.inj hhost)
      obtain ⟨hempty, ho⟩ := ho₄.strdup hp
      exact ⟨by simpa [eq_comm, hne] using hempty, ho⟩
  obtain ⟨hport', ho₆⟩ := hhost'.2.strdup hport
  obtain ⟨hname', ho₇⟩ := ho₆.strdup hname
  obtain ⟨hpath', ho₈⟩ := ho₇.alloc (mallocStore_ok hpath)
  have hb := (argvOf_isOk (argvLen_fits 0 (by decide)) ho₈).2 _ hargs
  have hargv : args.argv ≠ .emptyString := hb.owned.ne_emptyString (by simp)
  have haself : args.self ≠ .emptyString := hb.owned.ne_emptyString (by simp)
  -- the blocks of the buffer come first, and are freed
  have hperm : (args.argv :: args.self :: (args.elems ++ path :: name :: port ::
      (host.toList ++ [buf, self, data, junk]))).Perm
      (data :: junk :: ((⟨self, host, port, name, path, args⟩ : MasterEntPtrs).ptrs ++ [buf])) := by
    rw [List.perm_iff_count]
    intro p
    simp only [MasterEntPtrs.ptrs, List.count_cons, List.count_append, List.count_nil]
    omega
  have ho := hb.owned
  have heq : args.argv :: args.self :: (args.elems.filter (· ≠ .emptyString) ++
      (path :: name :: port :: (host.toList ++ [buf, self, data, junk])).filter
        (· ≠ .emptyString)) =
      (args.argv :: args.self :: (args.elems ++ path :: name :: port ::
        (host.toList ++ [buf, self, data, junk]))).filter (· ≠ .emptyString) := by
    simp only [List.filter_append, List.filter_cons (x := args.argv),
      List.filter_cons (x := args.self), ne_eq, hargv, haself, not_false_eq_true, decide_true,
      if_true]
  rw [heq] at ho
  have ho' := ho.perm (hperm.filter _)
  rw [List.filter_cons_of_pos (by simpa using hdata'),
    List.filter_cons_of_pos (by simpa using hjunk')] at ho'
  obtain ⟨hok₁, ho'⟩ := ho'.myfree
  obtain rfl := Except.ok.inj (hok₁.symm.trans hfree₁)
  obtain ⟨hok₂, ho'⟩ := ho'.myfree
  obtain rfl := Except.ok.inj (hok₂.symm.trans hfree₂)
  refine ⟨⟨buf, ho'⟩, ?_⟩
  have hhost'' := hhost'.1
  rw [← hport', ← hname', ← hb.emptyString_mem_iff]
  simp only [MasterEntPtrs.ptrs, List.mem_append, List.mem_cons, List.not_mem_nil, or_false,
    hhost'', hargv.symm, haself.symm, hself'.symm, hpath'.symm, false_or]
  rw [eq_comm, eq_comm (a := Ptr.emptyString) (b := name)]
  exact or_assoc

/-- An entry of an accepted line can be destroyed if and only if its port is not empty. -/
theorem freeMasterEnt_isOk {h h' : Heap} {line : EntLine} {serv : MasterEntPtrs}
    (hline : line.Accepted) (hr : storeMasterEnt h line = .ok (serv, h')) :
    (∃ h'', freeMasterEnt h' serv = .ok h'') ↔ line.port ≠ [] := by
  obtain ⟨⟨buf, ho⟩, hempty⟩ := storeMasterEnt_owns hr
  have hmem : Ptr.emptyString ∈ serv.ptrs ↔ line.port = [] := by
    simp only [hempty, hline.fields.1, hline.masterArgs_ne_nil, or_false]
  rw [List.filter_append] at ho
  rw [freeMasterEnt_eq, ne_eq, ← hmem]
  rcases foldlM_myfree ho with ⟨hno, h'', hrun, -⟩ | ⟨hyes, e, herr⟩
  · exact iff_of_true ⟨h'', hrun⟩ hno
  · refine iff_of_false ?_ (not_not.2 hyes)
    rintro ⟨h'', hrun⟩
    cases herr.symm.trans hrun

/-! ## What can be given back -/

/-- A program can give an address back if and only if it was not made from an empty string. So a
string can be split if and only if it is not empty, an array can be destroyed if and only if no
string in it is empty, and an entry if and only if its port is not empty. The sizes that a call
asks for must each be an `int`. -/
theorem given_back_iff (h : Heap) :
    (∀ s, allocSystem.Reach s → ∀ x ∈ s.live,
      ((∃ h', myfree s.heap x.1 = .ok h') ↔ ¬x.2.Empty) ∧
      ∀ len, 1 ≤ len → ((∃ r, myrealloc s.heap x.1 len = .ok r) ↔ ¬x.2.Empty)) ∧
    (∀ string delim,
      ((∃ r, argvSplit h string delim = .ok r) ↔ string ≠ [] ∧ StrFits string ∧
        ArrayFits (argvLen 1 (strtokAll delim string).length)) ∧
      ∀ r, argvSplit h string delim = .ok r → ∃ h', argvFree r.2 r.1 = .ok h') ∧
    (∀ len args string delim r, ArrayFits (argvLen len 0) → argvOf h len args = .ok r →
      ((∃ r', argvSplitAppend r.2 r.1 string delim = .ok r') ↔ string ≠ [] ∧ StrFits string ∧
        ArrayFits (argvLen len (args.length + (strtokAll delim string).length)))) ∧
    (∀ len args r, ArrayFits (argvLen len 0) → argvOf h len args = .ok r →
      ((∃ h', argvFree r.2 r.1 = .ok h') ↔ [] ∉ args)) ∧
    ∀ line : EntLine, line.Accepted → ∀ serv h', storeMasterEnt h line = .ok (serv, h') →
      ((∃ h'', freeMasterEnt h' serv = .ok h'') ↔ line.port ≠ []) := by
  have hfree : ∀ {argvp : Argv} {h : Heap} {len : ℤ} {args : List Bytes},
      argvp.Built h len args [] → ((∃ h', argvFree h argvp = .ok h') ↔ [] ∉ args) := by
    intro argvp h len args hb
    rcases argvFree_isOk hb with ⟨hno, h', hok, -⟩ | ⟨hyes, e, herr⟩
    · exact iff_of_true ⟨h', hok⟩ hno
    · refine iff_of_false ?_ (not_not.2 hyes)
      rintro ⟨h', hok⟩
      cases herr.symm.trans hok
  refine ⟨fun s hs x hx => live_released_iff hs hx, fun string delim => ?_,
    fun len args string delim r hlen hr => ?_, fun len args r hlen hr => ?_,
    fun line hline serv h' hr => freeMasterEnt_isOk hline hr⟩
  · obtain ⟨hiff, hb⟩ := argvSplit_isOk h string delim
    exact ⟨hiff, fun r hr => (hfree (hb r hr)).2 fun hmem => strtokAll_ne_nil [] hmem rfl⟩
  · have hb := (argvOf_isOk hlen h.owns_nil).2 r hr
    exact (argvSplitAppend_isOk hb string delim).1
  · exact hfree ((argvOf_isOk hlen h.owns_nil).2 r hr)

/-- The line of the example configuration file can be stored and destroyed. -/
theorem given_back_iff_smtpd : ∃ line : EntLine, line.Accepted ∧ line.port = cstr "9000" ∧
    ∃ serv h', storeMasterEnt heapInit line = .ok (serv, h') ∧
      ∃ h'', freeMasterEnt h' serv = .ok h'' := by
  have hrun : (readMasterEnt (0, 0)
      (cstr "127.0.0.1:9000 inet - 10 ../service/smtpd\n")).toOption.any (fun r => r.any fun r =>
        r.1.port = cstr "9000" ∧ (storeMasterEnt heapInit r.1).toOption.isSome) = true := by
    decide +kernel
  obtain ⟨o, ho, hobs⟩ := (Option.any_eq_true _ _).1 hrun
  obtain ⟨⟨line, fp'⟩, rfl, hobs⟩ := (Option.any_eq_true _ _).1 hobs
  obtain ⟨hport, hstore⟩ := of_decide_eq_true hobs
  obtain ⟨⟨serv, h'⟩, hstore⟩ := Option.isSome_iff_exists.1 hstore
  have hline : line.Accepted := ⟨_, _, _, toOption_eq_some ho⟩
  refine ⟨line, hline, hport, serv, h', toOption_eq_some hstore, ?_⟩
  refine ((given_back_iff heapInit).2.2.2.2 line hline _ _ (toOption_eq_some hstore)).2 ?_
  rw [hport]
  decide

/-- A program that saves the empty string and frees it panics, as does one that splits the empty
string, and one that destroys an array with an empty string or an entry with an empty port. -/
theorem not_given_back_empty :
    (∃ s, allocSystem.Reach s ∧ (Ptr.emptyString, Request.strdup []) ∈ s.live ∧
      myfree s.heap .emptyString = .error (.panic (.corruptOrUnallocated "myfree")) ∧
      myrealloc s.heap .emptyString 1 = .error (.panic (.corruptOrUnallocated "myrealloc"))) ∧
    argvSplit heapInit [] masterBlanks = .error (.panic (.corruptOrUnallocated "myfree")) ∧
    (argvOf heapInit 0 [[]] >>= fun r => argvFree r.2 r.1) =
      .error (.panic (.corruptOrUnallocated "myfree")) ∧
    ∃ line : EntLine, line.Accepted ∧ (storeMasterEnt heapInit line >>= fun r =>
      freeMasterEnt r.2 r.1) = .error (.panic (.corruptOrUnallocated "myfree")) := by
  have hget : allocSystem.step ⟨heapInit, []⟩ (.get (.strdup []))
      ⟨heapInit, [(.emptyString, .strdup [])]⟩ :=
    .get (x := (.emptyString, heapInit)) rfl
  refine ⟨⟨_, ⟨_, _, rfl, .single hget⟩, by simp, rfl, rfl⟩, rfl, rfl, ?_⟩
  have hrun : (readMasterEnt (0, 0) (cstr "smtp: inet 0 1 smtpd\n")).toOption.any (fun r =>
      r.any fun r => match storeMasterEnt heapInit r.1 >>= fun r => freeMasterEnt r.2 r.1 with
        | .error e => e = .panic (.corruptOrUnallocated "myfree")
        | .ok _ => false) = true := by
    decide +kernel
  obtain ⟨o, ho, hobs⟩ := (Option.any_eq_true _ _).1 hrun
  obtain ⟨⟨line, fp'⟩, rfl, hfault⟩ := (Option.any_eq_true _ _).1 hobs
  refine ⟨line, ⟨_, _, _, toOption_eq_some ho⟩, ?_⟩
  simp only at hfault
  split at hfault
  · rename_i e herr
    rw [herr, of_decide_eq_true hfault]
  · cases hfault

end Nowra
