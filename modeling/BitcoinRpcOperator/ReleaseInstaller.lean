import BitcoinRpcOperator.HostSystem
import BitcoinRpcOperator.PythonValues

/-!
# Installing a Bitcoin Core release

`bitcoin.py`: where a release is fetched from, how its archive is verified and
staged, and how the two staged binaries are swapped in between a stop and a start.
Hashing, the tar reader, the network and the staged programs are parameters.
-/

namespace BitcoinRpcOperator.ReleaseInstaller
open Text ServiceConfiguration FallibleProcedures Backtracking HostSystem

structure Response where
  ok : Bool
  content : Bytes
  text : Str

structure TarMember where
  name : Str
  isFile : Bool
  /-- `extractfile(member).read()`, when there is a file object. -/
  content : Option Bytes

/-- The files the charm ships. -/
inductive Template where
  | monitorScript
  | unit (s : Service)
  deriving DecidableEq, Repr

/-- What the code relies on outside the repository. -/
structure Library where
  /-- `hashlib.sha256(data).hexdigest()` -/
  sha256 : Bytes → Str
  /-- The members of a gzipped tar archive; `none` when it is not one. -/
  tarMembers : Bytes → Option (List TarMember)
  /-- What a URL serves. -/
  web : Str → Response
  /-- What a binary prints for `--version`. -/
  versionOutput : Bytes → Str
  /-- What the further checks of `urlsplit` on a network location raise, if anything. -/
  netlocError : Str → Option Str
  /-- Which characters beyond ASCII `repr` writes as they are. -/
  printable : Char → Bool
  template : Template → Bytes

structure SplitUrl where
  scheme : Str
  netloc : Str
  path : Str
  query : Str
  fragment : Str

def isC0OrSpace (c : Char) : Bool := c.toNat ≤ 32

def isSchemeChar (c : Char) : Bool := c.isAlphanum || c == '+' || c == '-' || c == '.'

/-- `urlsplit`: tabs and line breaks are dropped, and an empty query or fragment is
reported like an absent one. -/
def urlsplit (lib : Library) (url : Str) : Except Exc SplitUrl :=
  let url := (lstripBy isC0OrSpace url).filter fun c => c != '\t' && c != '\r' && c != '\n'
  let (scheme, url) :=
    match cutAt (· == ':') url with
    | (front, some rest) =>
      if front.head?.any Char.isAlpha && front.all isSchemeChar then
        (front.map Char.toLower, rest)
      else ([], url)
    | (_, none) => ([], url)
  let (netloc, url) :=
    if "//".toList.isPrefixOf url then
      let rest := url.drop 2
      let stop := fun c => c == '/' || c == '?' || c == '#'
      (rest.takeWhile (! stop ·), rest.dropWhile (! stop ·))
    else ([], url)
  if (netloc.contains '[') != (netloc.contains ']') then
    .error (.valueError "Invalid IPv6 URL".toList)
  else match lib.netlocError netloc with
    | some message => .error (.valueError message)
    | none =>
      let (url, fragment) := cutAt (· == '#') url
      let (path, query) := cutAt (· == '?') url
      .ok ⟨scheme, netloc, path, query.getD [], fragment.getD []⟩

/-- `parsed.hostname`, empty when there is none. -/
def SplitUrl.hostname (u : SplitUrl) : Str :=
  let hostinfo := (rcutAt (· == '@') u.netloc).2
  match cutAt (· == '[') hostinfo with
  | (_, some bracketed) => (cutAt (· == ']') bracketed).1
  | (_, none) => (cutAt (· == ':') hostinfo).1

/-- `parsed.username is not None`, which a password implies. -/
def SplitUrl.hasUserinfo (u : SplitUrl) : Bool := u.netloc.contains '@'

/-- `PurePosixPath(path).parts` without the root: empty and `.` segments vanish. -/
def pathParts (path : Str) : List Str :=
  (path.splitOnP (· == '/')).filter fun s => !s.isEmpty && s != ['.']

def pathName (path : Str) : Str := (pathParts path).getLast?.getD []

def pathParentName (path : Str) : Str := (pathParts path).dropLast.getLast?.getD []

def isDigit (c : Char) : Bool := (digit? c).isSome

def digits : Pattern := .plus (.char isDigit)

/-- `\d+(?:\.\d+){1,2}` -/
def releaseVersionPattern : Pattern :=
  let component := .seq (.lit '.') digits
  .seq digits (.seq component (.opt component))

/-- `release_url.rsplit("/", 1)`; an accepted URL always holds a slash. -/
def lastSegment (url : Str) : Str × Str :=
  match rcutAt (· == '/') url with
  | (some front, last) => (front, last)
  | (none, last) => (last, [])

def expectedFilename (version : Str) : Str :=
  "bitcoin-".toList ++ version ++ "-x86_64-linux-gnu.tar.gz".toList

/-- `_release_urls`: the archive's URL and that of its checksums. -/
def releaseUrls (lib : Library) (version binaryUrl : Str) : Except Exc (Str × Str) :=
  if (fullmatch releaseVersionPattern version).isNone then
    .error (.valueError "version must contain two or three numeric components".toList)
  else
    let stripped := strip binaryUrl
    let releaseUrl := if stripped.isEmpty then replaceAll "VERSION".toList version dlUrl
      else stripped
    match urlsplit lib releaseUrl with
    | .error exc => .error exc
    | .ok parsed =>
      if parsed.scheme != "https".toList || parsed.hostname.isEmpty || parsed.hasUserinfo ||
          !parsed.query.isEmpty || !parsed.fragment.isEmpty ||
          pathName parsed.path != expectedFilename version then
        .error (.valueError ("binary-url must be an HTTPS URL without credentials, ".toList ++
          "query, or fragment, ending in ".toList ++ expectedFilename version))
      else .ok (releaseUrl, (lastSegment releaseUrl).1 ++ "/SHA256SUMS".toList)

def isHexDigit (c : Char) : Bool :=
  c.isDigit || ('a' ≤ c && c ≤ 'f') || ('A' ≤ c && c ≤ 'F')

/-- `([0-9a-fA-F]{64})\s+\*?(.+)` -/
def checksumPattern : Pattern :=
  .seqs [.group 1 (.times (.char isHexDigit) 64), .plus (.char isSpace), .opt (.lit '*'),
    .group 2 (.plus (.char (· != '\n')))]

/-- The digest a line lists for `filename`. -/
def listedDigest (filename line : Str) : Option Str := do
  let m ← fullmatch checksumPattern (strip line)
  if m.captured 2 = filename then some ((m.captured 1).map Char.toLower) else none

def expectedChecksum (payload filename : Str) : Except Exc Str :=
  match (splitLines payload).findSome? (listedDigest filename) with
  | some digest => .ok digest
  | none => .error (.valueError ("SHA256SUMS has no entry for ".toList ++ filename))

/-- `(?:^|\s)v?(\d+(?:\.\d+)+)` -/
def versionPattern : Pattern :=
  .seqs [.alt .textStart (.char isSpace), .opt (.lit 'v'),
    .group 1 (.seq digits (.plus (.seq (.lit '.') digits)))]

/-- `sys.get_int_max_str_digits()`: `int` refuses a longer text. -/
def intMaxStrDigits : ℕ := 4300

/-- `_version_parts`: trailing zero components are dropped. -/
def versionParts (lib : Library) (value : Str) : Except Exc (List ℕ) :=
  match search versionPattern value with
  | none => .error (.valueError
      ("cannot parse Bitcoin Core version from ".toList ++ PythonValues.reprStr lib.printable value))
  | some m =>
    let parts := (m.captured 1).splitOnP (· == '.')
    if parts.any (intMaxStrDigits < ·.length) then
      .error (.valueError "Exceeds the limit (4300 digits) for integer string conversion".toList)
    else .ok ((parts.map decimal).rdropWhile (· == 0))

/-- The binaries a release must contain, with the path each is installed to. -/
inductive Tool where
  | bitcoind | bitcoinCli
  deriving DecidableEq, Repr

namespace Tool

def name : Tool → Str
  | .bitcoind => "bitcoind".toList
  | .bitcoinCli => "bitcoin-cli".toList

def destination : Tool → Path
  | .bitcoind => .binary
  | .bitcoinCli => .cli

def staged (t : Tool) : Path := .stage t.name

/-- `stage_dir / f"{destination.name}.previous"` -/
def backup (t : Tool) : Path := .stage (t.name ++ ".previous".toList)

/-- The order of the `destinations` map. -/
def all : List Tool := [.bitcoind, .bitcoinCli]

end Tool

def raiseExcept {α : Type} : Except Exc α → Proc α
  | .ok a => pure a
  | .error e => throw e

/-- `requests.get` followed by `raise_for_status`. -/
def fetch (lib : Library) (url : Str) : Proc Response := do
  let _ ← observe (.httpGet url)
  if (lib.web url).ok then pure (lib.web url)
  else throw (.raised ("HTTP error for url: ".toList ++ url))

/-- The tool a regular member `bin/<name>` of the archive holds, with its bytes. -/
def toolMember (m : TarMember) : Option (Tool × Bytes) :=
  match Tool.all.find? (·.name = pathName m.name) with
  | some t => if pathParentName m.name = "bin".toList ∧ m.isFile then m.content.map (t, ·) else none
  | none => none

/-- Write the matching members to the staging directory and return the tools found. -/
def extractMembers : List TarMember → List Tool → Proc (List Tool)
  | [], found => pure found
  | m :: ms, found =>
    match toolMember m with
    | none => extractMembers ms found
    | some (t, content) => do
      writeFile t.staged content
      chmod t.staged 0o755
      extractMembers ms (t :: found)

def extractBinaries (lib : Library) (archive : Bytes) (version : Str) : Proc Unit := do
  let _ ← observe .openArchive
  match lib.tarMembers archive with
  | none => throw (.raised "not a gzip file".toList)
  | some members => do
    let found ← extractMembers members []
    let missing := [Tool.bitcoinCli, Tool.bitcoind].filter (· ∉ found)
    runIf (missing ≠ []) do
      throw (.valueError ("Bitcoin Core ".toList ++ version ++ " archive is missing ".toList ++
        ", ".toList.intercalate (missing.map Tool.name)))

def validateVersion (lib : Library) (t : Tool) (version : Str) : Proc Unit := do
  let _ ← observe (.execute t.staged)
  let f ← fileAt t.staged
  let stdout := lib.versionOutput f.data
  let reported ← raiseExcept (versionParts lib stdout)
  let expected ← raiseExcept (versionParts lib version)
  runIf (reported ≠ expected) do
    throw (.valueError ("staged ".toList ++ t.name ++ " version does not match expected ".toList ++
      version ++ ": ".toList ++ (splitLines stdout).head?.getD "empty output".toList))

/-- The callables `install_release` is given. -/
structure Control where
  isRunning : Proc Bool
  stop : Proc Unit
  start : Proc Unit
  waitForRunningVersion : Proc (Option Str)

/-- One turn of the loop of `_restore`. -/
def restoreBinary (t : Tool) : Option Path → Proc Unit
  | none => unlink t.destination
  | some backup => do
    unlink t.destination
    let present ← fileExists backup
    runIf present (replace backup t.destination)

def restore : List (Tool × Option Path) → Proc Unit
  | [] => pure ()
  | (t, backup) :: rest => do
    restoreBinary t backup
    restore rest

def stopForActivation (c : Control) : Proc Unit :=
  tryCatch c.stop fun exc => do
    let recovered ← attempt .restartAfterStop c.start
    match recovered with
    | some recovery => throw (.runtimeError
        ("failed to recover Bitcoin Core after stop failure: ".toList ++ recovery.text) (some exc))
    | none => throw exc

/-- The first rename of `_swap_binaries`, and what it raised. -/
def moveAside (t : Tool) (present : Bool) : Proc (Option Exc) :=
  if present then outcome (replace t.destination t.backup) else pure none

/-- One turn of the loop of `_swap_binaries`: move the old binary aside, then the
staged one in. The backup map already holds the entry when the second move raises. -/
def swapBinary (t : Tool) (backups : List (Tool × Option Path)) :
    Proc (List (Tool × Option Path) × Option Exc) := do
  let present ← fileExists t.destination
  let moved ← moveAside t present
  match moved with
  | some exc => pure (backups, some exc)
  | none => do
    let swapped ← outcome (replace t.staged t.destination)
    pure (backups ++ [(t, if present then some t.backup else none)], swapped)

/-- `_swap_binaries`: the backup map filled so far and what was raised, if anything. -/
def swapBinaries : List Tool → List (Tool × Option Path) →
    Proc (List (Tool × Option Path) × Option Exc)
  | [], backups => pure (backups, none)
  | t :: ts, backups => do
    let swapped ← swapBinary t backups
    match swapped with
    | (backups, some exc) => pure (backups, some exc)
    | (backups, none) => swapBinaries ts backups

def verifyRunningVersion (lib : Library) (version : Str) (wait : Proc (Option Str)) : Proc Unit := do
  let running ← wait
  match running with
  | none => throw (.runtimeError
      ("Bitcoin Core ".toList ++ version ++ " did not become RPC-ready".toList) none)
  | some running => do
    let reported ← raiseExcept (versionParts lib running)
    let expected ← raiseExcept (versionParts lib version)
    runIf (reported ≠ expected) do
      throw (.runtimeError ("running Bitcoin Core version does not match expected ".toList ++
        version ++ ": ".toList ++ running) none)

def rollback (backups : List (Tool × Option Path)) (stopReplacement startPrevious : Bool)
    (c : Control) (cause : Exc) : Proc Unit := do
  let errors ← attemptAll
    ((if stopReplacement then [(.stopReplacement, c.stop)] else []) ++
      [(.restoreBinaries, restore backups)] ++
      (if startPrevious then [(.startPrevious, c.start)] else []))
  runIf (errors ≠ []) do
    throw (.runtimeError ("Bitcoin Core rollback failed (".toList ++
      "; ".toList.intercalate errors ++ [')']) (some cause))

/-- The start and the readiness check behind the swap. -/
def startReplacement (lib : Library) (version : Str) (wasRunning : Bool) (c : Control) : Proc Unit :=
  runIf wasRunning do
    c.start
    verifyRunningVersion lib version c.waitForRunningVersion

/-- The `try` block of `_activate`. -/
def swapAndStart (lib : Library) (version : Str) (wasRunning : Bool) (c : Control) : Proc Unit := do
  let swapped ← swapBinaries Tool.all []
  match swapped with
  | (backups, some exc) => do
    rollback backups false wasRunning c exc
    throw exc
  | (backups, none) =>
    tryCatch (startReplacement lib version wasRunning c) fun exc => do
      rollback backups wasRunning wasRunning c exc
      throw exc

def activate (lib : Library) (version : Str) (c : Control) : Proc Unit := do
  let wasRunning ← c.isRunning
  runIf wasRunning (stopForActivation c)
  swapAndStart lib version wasRunning c

/-- `archive_path.write_bytes`; a name that denotes a directory cannot be written. -/
def writeArchive (filename : Str) (archive : Bytes) : Proc Unit :=
  if filename ∈ [[], ['.'], ['.', '.']] then throw (.raised "Is a directory".toList)
  else writeFile (.stage filename) archive

/-- The body of the `with` block: stage, validate, activate. -/
def stageAndActivate (lib : Library) (version filename : Str) (archive : Bytes) (c : Control) :
    Proc Unit := do
  writeArchive filename archive
  extractBinaries lib archive version
  validateVersion lib .bitcoind version
  validateVersion lib .bitcoinCli version
  activate lib version c

/-- A temporary directory around `body`: it is removed on both exits, and a failure
to remove it is what is raised then. -/
def withStage (body : Proc Unit) : Proc Unit := do
  perform .makeStage fun _ h => h.clearStage
  tryCatch body fun exc => do
    perform .removeStage fun _ h => h.clearStage
    throw exc
  perform .removeStage fun _ h => h.clearStage

def installRelease (lib : Library) (version binaryUrl : Str) (c : Control) : Proc Unit :=
  runIf (¬ version.isEmpty) do
    let urls ← raiseExcept (releaseUrls lib version binaryUrl)
    let release ← fetch lib urls.1
    let sums ← fetch lib urls.2
    let filename := (lastSegment urls.1).2
    let expected ← raiseExcept (expectedChecksum sums.text filename)
    let actual := lib.sha256 release.content
    runIf (actual ≠ expected) do
      throw (.valueError ("SHA-256 mismatch for ".toList ++ filename ++ ": expected ".toList ++
        expected ++ ", got ".toList ++ actual))
    mkdirParents .binary
    withStage (stageAndActivate lib version filename release.content c)

end BitcoinRpcOperator.ReleaseInstaller
