import MaculaPy.Foundation.Once
import MaculaPy.Native.Functions
import MaculaPy.Wire.JsonText

/-! # Loading the library

`library_path`, `Native.__init__` and `native()`, which any number of threads call. What the
machine has at a path may change between two attempts. Every caller that has a library has the
same one, and it has every function the binding calls.
-/
namespace MaculaPy.Native
open Runs Wire Once

/-- `OSError` and `MaculaError`, with their texts. -/
inductive LoadError
  | os (text : PyStr)
  | macula (text : PyStr)
  deriving DecidableEq

/-- What `ctypes.CDLL` finds in a file; the texts are what the version functions return, decoded,
or NULL. -/
structure Opened where
  exports : String → Bool
  version : ℤ
  release : Option PyStr
  wire : Option PyStr

/-- A `Native`: the library with its path, its release and its wire. -/
structure Library where
  path : PyStr
  lib : Opened
  release : PyStr
  wire : PyStr

def abiVersion : ℤ := 1
def wireVersion : PyStr := .ofString "1.0"
def libraryFloor : PyStr := .ofString "v0.27.0-rc.3"

/-- `text.split(".")[0]`. -/
def major (text : PyStr) : PyStr := text.takeWhile fun c => c.val ≠ 46

/-- `speaks_our_wire`. -/
def speaksOurWire (wire : PyStr) : Bool := major wire = major wireVersion

def said (text : String) : PyStr := .ofString text

/-- `Native._version`. -/
def versionText (path : PyStr) (name : String) (value : Option PyStr) : Except LoadError PyStr :=
  match value with
  | none =>
    .error (.macula (said "macula-py: " ++ path ++ said " returned no " ++ said name ++ said "()"))
  | some text => .ok text

/-- `Native.__init__`, once `ctypes.CDLL` has opened the file. -/
def declare (path : PyStr) (lib : Opened) : Except LoadError Library :=
  match functions.find? (fun f => !lib.exports f.1) with
  | some f => .error (.macula (said "macula-py: " ++ path ++ said " has no " ++ said f.1 ++
      said "; this macula-py needs macula-go " ++ libraryFloor ++ said "'s library or later"))
  | none =>
    if lib.version ≠ abiVersion then
      .error (.macula (said "macula-py: " ++ path ++ said " is macula C ABI " ++
        .ofCodes (intText lib.version) ++ said ", and this macula-py binds ABI " ++
        .ofCodes (intText abiVersion)))
    else do
      let release ← versionText path "macula_library_version" lib.release
      let wire ← versionText path "macula_wire_version" lib.wire
      if speaksOurWire wire then .ok ⟨path,lib,release,wire⟩
      else .error (.macula (said "macula-py: " ++ path ++ said " is macula-go " ++ release ++
        said ", speaking wire " ++ wire ++ said ", and this macula-py speaks wire " ++ wireVersion))

/-- What does not change while the program runs: `sys.platform`, `repr`, `str(Path(text))` and
the path of a file name in the package's own directory. -/
structure Host where
  platform : PyStr
  repr : PyStr → PyStr
  path : PyStr → PyStr
  packaged : PyStr → PyStr

/-- What an attempt finds: `MACULA_LIBRARY_PATH`, which paths are files, and what
`ctypes.CDLL` gives for one or says in its `OSError`. -/
structure Found where
  override : Option PyStr
  isFile : PyStr → Bool
  cdll : PyStr → Except PyStr Opened

def libraryFileName (host : Host) : Except LoadError PyStr :=
  if (said "linux").isPrefixOf host.platform then .ok (said "libmacula.so")
  else if host.platform = said "darwin" then .ok (said "libmacula.dylib")
  else if host.platform = said "win32" then .ok (said "macula.dll")
  else .error (.os (said "macula-py: no macula-go library build for platform " ++
    host.repr host.platform))

def libraryPath (host : Host) (found : Found) : Except LoadError PyStr :=
  match found.override with
  | some (c :: text) =>
    let path := host.path (c :: text)
    if found.isFile path then .ok path
    else .error (.os (said "macula-py: MACULA_LIBRARY_PATH names " ++ path ++
      said ", which is not a file"))
  | _ => do
    let path := host.packaged (← libraryFileName host)
    if found.isFile path then .ok path
    else .error (.os (said "macula-py: " ++ path ++
      said " is missing: there is no macula-py wheel for this platform installed. Build macula-go's cabi as a shared library and set MACULA_LIBRARY_PATH to it."))

/-- `Native(str(library_path()))`. -/
def load (host : Host) (found : Found) : Except LoadError Library := do
  let path ← libraryPath host found
  match found.cdll path with
  | .error text => .error (.os text)
  | .ok lib => declare path lib

/-- The machine of `native()`: each attempt is one on this host, with whatever it finds. -/
def Attempts (host : Host) (_ : State ℕ Library LoadError) (a : Action ℕ Library LoadError) :
    Prop :=
  ∀ i r, a = .make i r → ∃ found, r = load host found

/-! ## What a library was checked for -/

structure Library.Checked (n : Library) : Prop where
  exports : ∀ f ∈ functions, n.lib.exports f.1 = true
  version : n.lib.version = abiVersion
  release : n.lib.release = some n.release
  wire : n.lib.wire = some n.wire
  major : major n.wire = major wireVersion

theorem versionText_eq_ok {path : PyStr} {name : String} {value : Option PyStr} {text : PyStr} :
    versionText path name value = .ok text ↔ value = some text := by
  cases value <;> simp [versionText]

theorem declare_eq_ok {path : PyStr} {lib : Opened} {n : Library} :
    declare path lib = .ok n ↔ n.path = path ∧ n.lib = lib ∧ n.Checked := by
  rcases n with ⟨path',lib',release,wire⟩
  constructor
  · intro h
    rw [declare] at h
    split at h
    case h_1 => cases h
    case h_2 hf =>
      split at h
      case isTrue => cases h
      case isFalse hv =>
        rw [not_ne_iff] at hv
        cases hr : versionText path "macula_library_version" lib.release with
        | error => simp [hr,bind,Except.bind] at h
        | ok release' =>
          cases hw : versionText path "macula_wire_version" lib.wire with
          | error => simp [hr,hw,bind,Except.bind] at h
          | ok wire' =>
            simp only [hr,hw,bind,Except.bind] at h
            split at h
            case isFalse => cases h
            case isTrue hs =>
              cases h
              refine ⟨rfl,rfl,?_,hv,versionText_eq_ok.mp hr,versionText_eq_ok.mp hw,
                of_decide_eq_true hs⟩
              intro f hmem
              simpa using List.find?_eq_none.mp hf f hmem
  · rintro ⟨rfl,rfl,hc⟩
    have hf : functions.find? (fun f => !lib'.exports f.1) = none := by
      rw [List.find?_eq_none]
      intro f hmem
      have he : lib'.exports f.1 = true := hc.exports f hmem
      simp [he]
    have hs : speaksOurWire wire = true := decide_eq_true hc.major
    have hv : lib'.version = abiVersion := hc.version
    have hr : lib'.release = some release := hc.release
    have hw : lib'.wire = some wire := hc.wire
    simp [declare,hf,hv,hr,hw,versionText,bind,Except.bind,hs]

theorem names_path (path rest : PyStr) : path <:+: said "macula-py: " ++ (path ++ rest) :=
  ⟨said "macula-py: ",rest,List.append_assoc _ _ _⟩

theorem versionText_names {path : PyStr} {name : String} {value : Option PyStr} {e : LoadError}
    (h : versionText path name value = .error e) : ∃ text, e = .macula text ∧ path <:+: text := by
  cases value with
  | some text => cases h
  | none =>
    cases h
    refine ⟨_,rfl,?_⟩
    simp only [List.append_assoc]
    exact names_path path _

/-- Whatever is wrong with a library, the refusal names its path. -/
theorem declare_names {path : PyStr} {lib : Opened} {e : LoadError}
    (h : declare path lib = .error e) : ∃ text, e = .macula text ∧ path <:+: text := by
  rw [declare] at h
  split at h
  case h_1 f _ =>
    cases h
    refine ⟨_,rfl,?_⟩
    simp only [List.append_assoc]
    exact names_path path _
  case h_2 =>
    split at h
    case isTrue =>
      cases h
      refine ⟨_,rfl,?_⟩
      simp only [List.append_assoc]
      exact names_path path _
    case isFalse =>
      cases hr : versionText path "macula_library_version" lib.release with
      | error e' =>
        rw [hr] at h
        cases h
        exact versionText_names hr
      | ok release =>
        cases hw : versionText path "macula_wire_version" lib.wire with
        | error e' =>
          rw [hr,hw] at h
          cases h
          exact versionText_names hw
        | ok wire =>
          simp only [hr,hw,bind,Except.bind] at h
          split at h
          case isTrue => cases h
          case isFalse =>
            cases h
            refine ⟨_,rfl,?_⟩
            simp only [List.append_assoc]
            exact names_path path _

theorem load_eq_ok {host : Host} {found : Found} {n : Library} :
    load host found = .ok n ↔ libraryPath host found = .ok n.path ∧
      found.cdll n.path = .ok n.lib ∧ n.Checked := by
  constructor
  · intro h
    cases hp : libraryPath host found with
    | error e =>
      rw [load,hp] at h
      cases h
    | ok path =>
      simp only [load,hp,bind,Except.bind] at h
      split at h
      case h_1 => cases h
      case h_2 lib hl =>
        obtain ⟨rfl,rfl,hc⟩ := declare_eq_ok.mp h
        exact ⟨rfl,hl,hc⟩
  · rintro ⟨hp,hl,hc⟩
    simp only [load,hp,hl,bind,Except.bind]
    exact declare_eq_ok.mpr ⟨rfl,rfl,hc⟩

/-- Every function that an operation calls through `invoke` is in the library. -/
theorem Library.Checked.invokes {n : Library} (h : n.Checked) {c : Site} (hc : c ∈ sites) :
    n.lib.exports c.function = true := by
  obtain ⟨g,hg,-⟩ := Option.bind_eq_some_iff.mp (sites_match c hc).2
  have hs : (functions.lookup c.function).isSome = true := Option.isSome_of_mem hg
  obtain ⟨f,hf,he⟩ := List.lookup_isSome_iff.mp hs
  rw [beq_iff_eq] at he
  rw [he]
  exact h.exports f hf

def linux : Host where
  platform := said "linux"
  repr text := said "'" ++ text ++ said "'"
  path text := text
  packaged name := said "_native/" ++ name

def nothing : Found := ⟨none,fun _ => false,fun _ => .error []⟩
def present : Found :=
  ⟨none,fun _ => true,fun _ => .ok ⟨fun _ => true,1,some (said "v0.27.0"),some (said "1.1")⟩⟩

/-- A thread fails to load the library, another loads it, and the first asks again. -/
def secondTry : List (Action ℕ Library LoadError) :=
  [.enter 0,.acquire 0,.test 0,.enter 1,.make 0 (load linux nothing),.leave 0,
    .acquire 1,.test 1,.make 1 (load linux present),.read 1,.leave 1,
    .enter 0,.acquire 0,.test 0,.read 0,.leave 0,.enter 2,.acquire 2]

end MaculaPy.Native
