import Mathlib.Algebra.BigOperators.Group.List.Basic
import Nowra.MasterEnt

/-!
# The command line of a child

`single_server_main` reads its options with `getopt` : the service name is the base name of the
command, unless there is an option `-n`. `getopt` is that of POSIX, with its place in the
arguments made explicit, and stops at the first argument that is no option.

The arguments that `get_master_ent` makes of a line are read back as the line's service name,
transport and trailing arguments (`singleServerMain_masterArgs`).
-/

namespace Nowra

/-! ## `getopt` -/

/-- `-` -/
def dash : BitVec 8 := BitVec.ofNat 8 '-'.toNat

/-- Where `getopt` is : the index of the next argument, and what is left of an argument with
several options in it. -/
structure Getopt where
  optind : ℕ
  nextchar : Bytes
  deriving DecidableEq

/-- What a call of `getopt` returns. -/
inductive GetoptResult
  /-- `-1` -/
  | done
  /-- `?` -/
  | unknown
  /-- An option, with `optarg` if it takes one. -/
  | opt (c : BitVec 8) (optarg : Bytes)
  deriving DecidableEq

/-- Whether an option takes an argument, nothing if there is no such option. -/
def optTakesArg (optstring : Bytes) (c : BitVec 8) : Option Bool :=
  match optstring with
  | [] => none
  | o :: optstring =>
    if o = c ∧ c ≠ colon then some (optstring.head? = some colon) else optTakesArg optstring c

/-- The options to read next, nothing at the end of the options, and the index of their
argument. -/
def getoptElement (argv : List Bytes) (st : Getopt) : Option Bytes × ℕ :=
  if st.nextchar ≠ [] then (some st.nextchar, st.optind)
  else
    match argv[st.optind]? with
    | none | some [] => (none, st.optind)
    | some (c :: arg) =>
      if c ≠ dash ∨ arg = [] then (none, st.optind)
      else if arg = [dash] then (none, st.optind + 1)
      else (some arg, st.optind)

/-- The next option. -/
def getopt (argv : List Bytes) (optstring : Bytes) (st : Getopt) : GetoptResult × Getopt :=
  match getoptElement argv st with
  | (none, optind) | (some [], optind) => (.done, ⟨optind, []⟩)
  | (some (c :: rest), optind) =>
    match optTakesArg optstring c with
    | some true =>
      if rest ≠ [] then (.opt c rest, ⟨optind + 1, []⟩)
      else
        match argv[optind + 1]? with
        | none => (.unknown, ⟨optind + 1, []⟩)
        | some arg => (.opt c arg, ⟨optind + 2, []⟩)
    | some false => (.opt c [], ⟨if rest = [] then optind + 1 else optind, rest⟩)
    | none => (.unknown, ⟨if rest = [] then optind + 1 else optind, rest⟩)

/-! ## The options of a server -/

/-- The option string. -/
def serverOptstring : Bytes := cstr "cDi:lm:n:o:s:St:uv"

/-- What the options set. -/
structure ServerOptions where
  serviceName : Bytes
  transport : Option Bytes
  deriving DecidableEq

/-- The options that are looked at. -/
def ServerOptions.set (o : ServerOptions) : GetoptResult → ServerOptions
  | .opt c optarg =>
    if c = BitVec.ofNat 8 'n'.toNat then { o with serviceName := optarg }
    else if c = BitVec.ofNat 8 't'.toNat then { o with transport := some optarg }
    else o
  | .done | .unknown => o

/-- The loop over the options. Returns what they set and `optind`. -/
def serverOptions (argv : List Bytes) : ℕ → ServerOptions → Getopt → Option (ServerOptions × ℕ)
  | 0, _, _ => none
  | n + 1, o, st =>
    match getopt argv serverOptstring st with
    | (.done, st) => some (o, st.optind)
    | (r, st) => serverOptions argv n (o.set r) st

/-- How `single_server_main` ends before it serves. -/
inductive ServerFatal
  /-- `no transport type specified` -/
  | noTransport
  /-- `unsupported transport type: %s` -/
  | unsupportedTransport (transport : Bytes)
  deriving DecidableEq

/-- What the server is called with. -/
structure SingleServer where
  serviceName : Bytes
  transport : Bytes
  argv : List Bytes
  deriving DecidableEq

/-- `tolower` -/
def toLower (c : BitVec 8) : BitVec 8 := if 65#8 ≤ c ∧ c ≤ 90#8 then c + 32#8 else c

/-- The options of `single_server_main`. Each turn of the loop reads a byte at least, or an
argument. Nothing if there are more turns than that. -/
def singleServerMain (argv : List Bytes) : Option (Except ServerFatal SingleServer) :=
  let fuel := (argv.map fun arg => arg.length + 1).sum + 1
  (serverOptions argv fuel ⟨basename (argv.headD []), none⟩ ⟨1, []⟩).map fun r =>
    match r.1.transport with
    | none => throw .noTransport
    | some transport =>
      if transport.map toLower = masterXportNameInet then
        pure ⟨r.1.serviceName, transport, argv.drop r.2⟩
      else throw (.unsupportedTransport transport)

/-! ## Reading the command line back -/

section Steps

variable {optstring : Bytes} {pre post : List Bytes} {c : BitVec 8}

/-- An option without an argument. -/
theorem getopt_flag (hc : c ≠ dash) (hopt : optTakesArg optstring c = some false) :
    getopt (pre ++ [dash, c] :: post) optstring ⟨pre.length, []⟩ =
      (.opt c [], ⟨pre.length + 1, []⟩) := by
  simp [getopt, getoptElement, hc, hopt]

/-- An option with its argument behind it, whatever it is. -/
theorem getopt_arg {arg : Bytes} (hc : c ≠ dash) (hopt : optTakesArg optstring c = some true) :
    getopt (pre ++ [dash, c] :: arg :: post) optstring ⟨pre.length, []⟩ =
      (.opt c arg, ⟨pre.length + 2, []⟩) := by
  simp [getopt, getoptElement, hc, hopt]

/-- An argument that does not begin with a dash ends the options, as the last one does. -/
theorem getopt_done (hpost : ∀ arg ∈ post, arg.head? ≠ some dash) :
    getopt (pre ++ post) optstring ⟨pre.length, []⟩ = (.done, ⟨pre.length, []⟩) := by
  cases post with
  | nil => simp [getopt, getoptElement]
  | cons arg post =>
    have harg := hpost arg List.mem_cons_self
    cases arg with
    | nil => simp [getopt, getoptElement]
    | cons c arg =>
      have hc : c ≠ dash := by simpa using harg
      simp [getopt, getoptElement, hc]

end Steps

/-- In `k` turns the loop goes from one argument to another and sets options. -/
def ServerReads (argv : List Bytes) (k : ℕ) (o : ServerOptions) (i : ℕ) (o' : ServerOptions)
    (j : ℕ) : Prop :=
  ∀ n, serverOptions argv (n + k) o ⟨i, []⟩ = serverOptions argv n o' ⟨j, []⟩

section Reads

variable {argv pre post : List Bytes} {o o₁ o₂ : ServerOptions} {i i₁ i₂ k k' : ℕ}

theorem ServerReads.refl : ServerReads argv 0 o i o i := fun _ => rfl

theorem ServerReads.trans (h : ServerReads argv k o i o₁ i₁)
    (h' : ServerReads argv k' o₁ i₁ o₂ i₂) : ServerReads argv (k + k') o i o₂ i₂ := by
  intro n
  rw [Nat.add_comm k, ← Nat.add_assoc, h, h']

/-- The option `-l` sets nothing. -/
theorem serverReads_l :
    ServerReads (pre ++ cstr "-l" :: post) 1 o pre.length o (pre.length + 1) := by
  intro n
  rw [serverOptions, show cstr "-l" = [dash, 108] by decide,
    getopt_flag (by decide) (by decide)]
  rfl

/-- The option `-n` sets the service name, whatever the name looks like. -/
theorem serverReads_n {name : Bytes} : ServerReads (pre ++ cstr "-n" :: name :: post) 1 o pre.length
    { o with serviceName := name } (pre.length + 2) := by
  intro n
  rw [serverOptions, show cstr "-n" = [dash, 110] by decide, getopt_arg (by decide) (by decide)]
  rfl

/-- The option `-t` sets the transport. -/
theorem serverReads_t {transport : Bytes} : ServerReads (pre ++ cstr "-t" :: transport :: post) 1 o
    pre.length { o with transport := some transport } (pre.length + 2) := by
  intro n
  rw [serverOptions, show cstr "-t" = [dash, 116] by decide, getopt_arg (by decide) (by decide)]
  rfl

end Reads

/-- The options that `get_master_ent` adds are read back. -/
theorem serverReads_masterArgs (line : EntLine) : ∃ k pre, k + 1 ≤ pre.length ∧
    line.masterArgs = pre ++ line.args ∧
    ServerReads line.masterArgs k ⟨basename line.command, none⟩ 1
      ⟨line.name, some line.transport⟩ pre.length := by
  -- the arguments up to each option, and the turns of the loop they take
  have hl : ∃ k pre, k + 1 ≤ pre.length ∧ line.masterArgs = pre ++
      ((if basename line.command ≠ line.name then [cstr "-n", line.name] else []) ++
        [cstr "-t", line.transport] ++ line.args) ∧
      ServerReads line.masterArgs k ⟨basename line.command, none⟩ 1
        ⟨basename line.command, none⟩ pre.length := by
    by_cases hmax : line.maxProc.val = 1
    · refine ⟨1, [line.command, cstr "-l"], by simp, by simp [EntLine.masterArgs, hmax], ?_⟩
      have hargs : line.masterArgs = [line.command] ++ cstr "-l" ::
          ((if basename line.command ≠ line.name then [cstr "-n", line.name] else []) ++
            [cstr "-t", line.transport] ++ line.args) := by
        simp [EntLine.masterArgs, hmax]
      rw [hargs]
      exact serverReads_l
    · exact ⟨0, [line.command], by simp, by simp [EntLine.masterArgs, hmax], .refl⟩
  obtain ⟨k, pre, hk, hargs, hreads⟩ := hl
  have hn : ∃ k pre, k + 1 ≤ pre.length ∧
      line.masterArgs = pre ++ ([cstr "-t", line.transport] ++ line.args) ∧
      ServerReads line.masterArgs k ⟨basename line.command, none⟩ 1 ⟨line.name, none⟩
        pre.length := by
    by_cases hbase : basename line.command = line.name
    · refine ⟨k, pre, hk, by simpa [hbase] using hargs, ?_⟩
      rw [hbase] at hreads ⊢
      exact hreads
    · refine ⟨k + 1, pre ++ [cstr "-n", line.name], by simpa using Nat.le_succ_of_le hk,
        by simpa [hbase] using hargs, hreads.trans ?_⟩
      have hargs' : line.masterArgs = pre ++ cstr "-n" :: line.name ::
          ([cstr "-t", line.transport] ++ line.args) := by
        simpa [hbase] using hargs
      rw [hargs', List.length_append]
      exact serverReads_n
  obtain ⟨k, pre, hk, hargs, hreads⟩ := hn
  refine ⟨k + 1, pre ++ [cstr "-t", line.transport], by simpa using Nat.le_succ_of_le hk,
    by simpa using hargs, hreads.trans ?_⟩
  rw [hargs, List.length_append]
  exact serverReads_t

/-- The child reads back what the master has written : the service name, the transport, and the
trailing arguments in order. -/
theorem singleServerMain_masterArgs {line : EntLine} (hline : line.Accepted)
    (hargs : ∀ arg ∈ line.args, arg.head? ≠ some dash) :
    singleServerMain line.masterArgs = some (.ok ⟨line.name, line.transport, line.args⟩) := by
  obtain ⟨k, pre, hk, hsplit, hreads⟩ := serverReads_masterArgs line
  -- there are turns left for the end of the options
  have hfuel := List.length_le_sum_of_one_le (line.masterArgs.map fun arg => arg.length + 1)
    (by simp)
  rw [List.length_map] at hfuel
  have hle : pre.length ≤ line.masterArgs.length := by simp [hsplit]
  obtain ⟨n, hn⟩ : ∃ n, (line.masterArgs.map fun arg => arg.length + 1).sum + 1 = n + 1 + k :=
    ⟨(line.masterArgs.map fun arg => arg.length + 1).sum - k, by omega⟩
  have hdone : serverOptions line.masterArgs (n + 1) ⟨line.name, some line.transport⟩
      ⟨pre.length, []⟩ = some (⟨line.name, some line.transport⟩, pre.length) := by
    rw [serverOptions, hsplit, getopt_done hargs]
  have hcommand : line.masterArgs.headD [] = line.command := by simp [EntLine.masterArgs]
  have hlower : line.transport.map toLower = masterXportNameInet := by
    rw [hline.fields.2.1]
    decide
  have hdrop : line.masterArgs.drop pre.length = line.args := by
    rw [hsplit, List.drop_left]
  simp only [singleServerMain, hcommand, hn, hreads (n + 1), hdone, Option.map_some, hlower, hdrop,
    if_true]
  rfl

/-- A name that looks like an option, a command in a directory, and two trailing arguments. -/
theorem singleServerMain_masterArgs_dash : ∃ line : EntLine, line.Accepted ∧
    line.masterArgs = [cstr "../service/smtpd", cstr "-l", cstr "-n", cstr "-t:25", cstr "-t",
      cstr "inet", cstr "a", cstr "b"] ∧
    singleServerMain line.masterArgs =
      some (.ok ⟨cstr "-t:25", cstr "inet", [cstr "a", cstr "b"]⟩) := by
  have hrun : (readMasterEnt (0, 0)
      (cstr "# service\n-t:25 inet - - ../service/smtpd a b\n")).toOption.any (fun r =>
        r.any fun r => r.1.name = cstr "-t:25" ∧ r.1.transport = cstr "inet" ∧
          r.1.args = [cstr "a", cstr "b"] ∧
          r.1.masterArgs = [cstr "../service/smtpd", cstr "-l", cstr "-n", cstr "-t:25",
            cstr "-t", cstr "inet", cstr "a", cstr "b"]) = true := by
    decide +kernel
  obtain ⟨o, ho, hobs⟩ := (Option.any_eq_true _ _).1 hrun
  obtain ⟨⟨line, fp'⟩, rfl, hfields⟩ := (Option.any_eq_true _ _).1 hobs
  obtain ⟨hname, htransport, hargs, hmaster⟩ := of_decide_eq_true hfields
  have hline : line.Accepted := ⟨_, _, _, toOption_eq_some ho⟩
  have hnodash : ∀ arg ∈ line.args, arg.head? ≠ some dash := by
    rw [hargs]
    decide
  have hmain := singleServerMain_masterArgs hline hnodash
  rw [hname, htransport, hargs] at hmain
  exact ⟨line, hline, hmaster, hmain⟩

end Nowra
