import MaculaPy.Wire.Inside

/-! # The native layer's errors

`native_error` over every text the native layer may hand it. The text's JSON tree is looked
at as the dict `json.loads` makes of it: of two members of one name the last one counts.
-/
namespace MaculaPy.Wire

/-- The classes of `_wire`'s errors, and `NativeCancelled`. -/
inductive ErrorClass
  | nativeCancelled
  | maculaError
  | maculaTimeoutError
  | invalidArgumentError
  | invalidHandleError
  | notFoundError
  | noProviderError
  | alreadyAnsweredError
  | closedError
  | refusedError
  | providerError
  | relayError
  | notSharedError
  | contentUnavailableError
  | confidentialityError
  | groupError
  | notSettledError
  | notACallerError
  deriving DecidableEq, Repr

/-- Every class but `NativeCancelled` is a `MaculaError`. -/
def ErrorClass.isMacula : ErrorClass → Bool
  | .nativeCancelled => false
  | _ => true

/-- What `native_error` returns, with the attributes of each class; `failed` is a class with
a text alone. -/
inductive NativeException
  | cancelled (message : PyStr)
  | failed (cls : ErrorClass) (text : PyStr)
  | provider (code detail : PyStr)
  | relay (code : PyStr)
  | unavailable (failures : List PyStr)
  | confidentiality (reason : PyStr) (named found : Option PyStr) (message : PyStr)
  | group (reason : PyStr) (topics : Option PyStr) (message : PyStr)
  | refused (message : PyStr) (reason registration station : Option PyStr)

namespace NativeException

def cls : NativeException → ErrorClass
  | .cancelled _ => .nativeCancelled
  | .failed c _ => c
  | .provider _ _ => .providerError
  | .relay _ => .relayError
  | .unavailable _ => .contentUnavailableError
  | .confidentiality _ _ _ _ => .confidentialityError
  | .group _ _ _ => .groupError
  | .refused _ _ _ _ => .refusedError

/-- `str(e)`. -/
def text : NativeException → PyStr
  | .cancelled m => m
  | .failed _ t => t
  | .provider code detail => .ofString "macula-py: the provider answered " ++ code ++
    if detail = [] then [] else .ofString ": " ++ detail
  | .relay code => .ofString "macula-py: the station could not relay the call: " ++ code
  | .unavailable failures =>
    .ofString "macula-py: no sharer gave the content: " ++
      (PyStr.ofString "; ").intercalate failures
  | .confidentiality _ _ _ m => .ofString "macula-py: " ++ m
  | .group _ _ m => .ofString "macula-py: " ++ m
  | .refused m _ _ _ => m

end NativeException

/-- Not zero, of either sign. -/
def Binary64.nonzero (x : Binary64) : Bool := x.bits.extractLsb' 0 63 != 0#63

/-- `bool(value)`. -/
def Json.truthy : Json → Bool
  | .null => false
  | .bool b => b
  | .int i => i != 0
  | .float x => x.nonzero
  | .str s => !s.isEmpty
  | .arr js => !js.isEmpty
  | .obj ms => !ms.isEmpty

/-- `a or b`. -/
def Json.or (a b : Json) : Json := if a.truthy then a else b

/-- `kind == name`. -/
def Json.is (name : String) : Json → Bool
  | .str s => s == PyStr.ofString name
  | _ => false

/-- The type's name, as an error names it. -/
def Json.typeName : Json → String
  | .null => "NoneType"
  | .bool _ => "bool"
  | .int _ => "int"
  | .float _ => "float"
  | .str _ => "str"
  | .arr _ => "list"
  | .obj _ => "dict"

/-- An object's member, the last of its name. -/
def member? (ms : List (PyStr × Json)) (name : String) : Option Json :=
  (ms.reverse.find? (fun m => m.1 = PyStr.ofString name)).map Prod.snd

/-- `error.get(name)`. -/
def errorGet (ms : List (PyStr × Json)) (name : String) : Json := (member? ms name).getD .null

/-- The keys of the dict, each at its first place. -/
def names (ms : List (PyStr × Json)) : List PyStr :=
  ms.foldl (fun ks m => if m.1 ∈ ks then ks else ks ++ [m.1]) []

/-- What a `for` takes from a value. -/
def Json.iterate : Json → Except PyError (List Json)
  | .arr js => .ok js
  | .obj ms => .ok ((names ms).map .str)
  | .str s => .ok (s.map (fun c => .str [c]))
  | j => .error (.typeError s!"'{j.typeName}' object is not iterable")

def Json.iterable : Json → Bool
  | .arr _ => true
  | .obj _ => true
  | .str _ => true
  | _ => false

def Json.hashable : Json → Bool
  | .arr _ => false
  | .obj _ => false
  | _ => true

/-- `_text`. -/
def Json.text? : Json → Option PyStr
  | .str s => some s
  | _ => none

/-- `_KINDS`. -/
def kinds : List (PyStr × ErrorClass) :=
  [(.ofString "timeout",.maculaTimeoutError),
    (.ofString "invalid_argument",.invalidArgumentError),
    (.ofString "invalid_handle",.invalidHandleError),
    (.ofString "not_found",.notFoundError),
    (.ofString "no_provider",.noProviderError),
    (.ofString "not_shared",.notSharedError),
    (.ofString "answered",.alreadyAnsweredError),
    (.ofString "closed",.closedError),
    (.ofString "not_settled",.notSettledError),
    (.ofString "not_a_caller",.notACallerError),
    (.ofString "failed",.maculaError)]

/-- `_KINDS.get(kind)`: a list or a dict is no key of a dict. -/
def kindsGet : Json → Except PyError (Option ErrorClass)
  | .str s => .ok (kinds.lookup s)
  | j => if j.hashable then .ok none else .error (.typeError s!"unhashable type: '{j.typeName}'")

section NativeError
variable (repr : Json → PyStr) (parse : PyStr → Option Json)

/-- `str(value)`. -/
def str : Json → PyStr
  | .str s => s
  | j => repr j

/-- `_failed_without_a_kind`. -/
def failedWithoutAKind (kind : Json) (message : PyStr) : Except PyError NativeException :=
  (kindsGet kind).map fun
    | none => .failed .maculaError
      (.ofString "macula-py: the native layer failed with unknown kind " ++ repr kind ++
        .ofString ": " ++ message)
    | some cls => .failed cls (.ofString "macula-py: " ++ message)

/-- The error of an object with the kind and the message read off it. -/
def errorOf (ms : List (PyStr × Json)) (kind : Json) (message : PyStr) :
    Except PyError NativeException :=
  if kind.is "cancelled" then .ok (.cancelled message)
  else if kind.is "provider_error" then
    .ok (.provider (str repr ((errorGet ms "code").or (.str [])))
      (str repr ((errorGet ms "detail").or (.str []))))
  else if kind.is "relay_error" then .ok (.relay (str repr ((errorGet ms "code").or (.str []))))
  else if kind.is "unavailable" then
    ((errorGet ms "failures").or (.arr [])).iterate.map fun fs => .unavailable (fs.map (str repr))
  else if kind.is "confidentiality" then
    .ok (.confidentiality (str repr ((errorGet ms "reason").or (.str [])))
      (errorGet ms "named").text? (errorGet ms "found").text? message)
  else if kind.is "group" then
    .ok (.group (str repr ((errorGet ms "reason").or (.str []))) (errorGet ms "prefix").text?
      message)
  else if kind.is "refused" then
    .ok (.refused (.ofString "macula-py: " ++ message) (errorGet ms "reason").text?
      (errorGet ms "registration").text? (errorGet ms "station").text?)
  else failedWithoutAKind repr kind message

/-- `native_error`; `parse` is `json.loads`, with no tree where it raises `ValueError`, and
`repr` the built-in one. -/
def nativeError (text : PyStr) : Except PyError NativeException :=
  match parse text with
  | some (.obj ms) =>
    match member? ms "kind" with
    | some kind => errorOf repr ms kind (str repr ((errorGet ms "message").or kind))
    | none => .ok (.failed .maculaError
      (.ofString "macula-py: the native layer failed with " ++ repr (.str text)))
  | _ => .ok (.failed .maculaError
      (.ofString "macula-py: the native layer failed with " ++ repr (.str text)))

end NativeError

/-- The kinds with a branch of their own. -/
def ownKinds : List (String × ErrorClass) :=
  [("cancelled",.nativeCancelled),("provider_error",.providerError),("relay_error",.relayError),
    ("unavailable",.contentUnavailableError),("confidentiality",.confidentialityError),
    ("group",.groupError),("refused",.refusedError)]

/-- The class the contract names for each kind. -/
def contractKinds : List (PyStr × ErrorClass) :=
  ownKinds.map (fun x => (.ofString x.1,x.2)) ++ kinds

/-- The kind of what was parsed, if it is an object that has one. -/
def kindOf : Option Json → Option Json
  | some (.obj ms) => member? ms "kind"
  | _ => none

/-- The kind is a list or a dict, or it is `unavailable` and its failures hold something that
is no collection. -/
def Breaks : Option Json → Prop
  | some (.obj ms) => ∃ k, member? ms "kind" = some k ∧ (k.hashable = false ∨
      k.is "unavailable" = true ∧ (errorGet ms "failures").truthy = true ∧
        (errorGet ms "failures").iterable = false)
  | _ => False

/-- The class is the kind's, and a kind that is not the contract's, or the text that names
none, is quoted. -/
structure NamesKind (repr : Json → PyStr) (text : PyStr) (parsed : Option Json)
    (e : NativeException) : Prop where
  cancelled : e.cls = .nativeCancelled ↔ kindOf parsed = some (.str (.ofString "cancelled"))
  known : ∀ s c, kindOf parsed = some (.str s) → contractKinds.lookup s = some c → e.cls = c
  unknown : (∀ s, kindOf parsed = some (.str s) → contractKinds.lookup s = none) →
    e.cls = .maculaError ∧ repr ((kindOf parsed).getD (.str text)) <:+: e.text

theorem Json.is_iff {name : String} {j : Json} :
    j.is name = true ↔ j = .str (.ofString name) := by
  cases j <;> simp [Json.is]

theorem Json.or_iterable {j : Json} :
    (j.or (.arr [])).iterable = true ↔ ¬ (j.truthy = true ∧ j.iterable = false) := by
  cases ht : j.truthy <;> simp [Json.or,ht,Json.iterable]

theorem Json.iterate_ok_iff {j : Json} : (∃ fs, j.iterate = .ok fs) ↔ j.iterable = true := by
  cases j <;> simp [Json.iterate,Json.iterable]

theorem kindsGet_ok_iff {k : Json} : (∃ c, kindsGet k = .ok c) ↔ k.hashable = true := by
  cases k <;> simp [kindsGet,Json.hashable]

theorem Json.is_unique {a b : String} {k : Json} (ha : k.is a = true) (hb : k.is b = true) :
    a = b :=
  PyStr.ofString_injective (Json.str.inj ((Json.is_iff.mp ha).symm.trans (Json.is_iff.mp hb)))

theorem Json.hashable_of_is {name : String} {k : Json} (h : k.is name = true) :
    k.hashable = true := by
  rw [Json.is_iff.mp h]
  rfl

theorem map_ok_iff {ε α β : Type*} {x : Except ε α} {f : α → β} :
    (∃ b, x.map f = .ok b) ↔ ∃ a, x = .ok a := by
  cases x <;> simp [Except.map]

section Results
variable {repr : Json → PyStr} {parse : PyStr → Option Json}
variable {ms : List (PyStr × Json)} {k : Json} {m : PyStr} {e : NativeException}

theorem failedWithoutAKind_ok_iff :
    (∃ e, failedWithoutAKind repr k m = .ok e) ↔ k.hashable = true :=
  map_ok_iff.trans kindsGet_ok_iff

/-- An error with a kind is made unless the kind is unhashable, or its failures are needed and
are no collection. -/
theorem errorOf_ok_iff : (∃ e, errorOf repr ms k m = .ok e) ↔ k.hashable = true ∧
    (k.is "unavailable" = true → ((errorGet ms "failures").or (.arr [])).iterable = true) := by
  have hother : ∀ {name : String}, k.is name = true → name ≠ "unavailable" →
      k.hashable = true ∧
        (k.is "unavailable" = true → ((errorGet ms "failures").or (.arr [])).iterable = true) :=
    fun h hn => ⟨Json.hashable_of_is h,fun hu => absurd (Json.is_unique h hu) hn⟩
  unfold errorOf
  split
  · next h => exact iff_of_true ⟨_,rfl⟩ (hother h (by decide))
  split
  · next h => exact iff_of_true ⟨_,rfl⟩ (hother h (by decide))
  split
  · next h => exact iff_of_true ⟨_,rfl⟩ (hother h (by decide))
  split
  · next h =>
    rw [map_ok_iff,Json.iterate_ok_iff]
    simp [h,Json.hashable_of_is h]
  next hu =>
  split
  · next h => exact iff_of_true ⟨_,rfl⟩ (hother h (by decide))
  split
  · next h => exact iff_of_true ⟨_,rfl⟩ (hother h (by decide))
  split
  · next h => exact iff_of_true ⟨_,rfl⟩ (hother h (by decide))
  rw [failedWithoutAKind_ok_iff]
  simp [hu]

/-- An error with a kind comes from the kind's own branch, or from the table. -/
theorem errorOf_cases (h : errorOf repr ms k m = .ok e) :
    (∃ x ∈ ownKinds, k.is x.1 = true ∧ e.cls = x.2) ∨
      (∀ x ∈ ownKinds, k.is x.1 = false) ∧ failedWithoutAKind repr k m = .ok e := by
  unfold errorOf at h
  split_ifs at h with h1 h2 h3 h4 h5 h6 h7
  · cases h
    exact Or.inl ⟨("cancelled",_),by simp [ownKinds],h1,rfl⟩
  · cases h
    exact Or.inl ⟨("provider_error",_),by simp [ownKinds],h2,rfl⟩
  · cases h
    exact Or.inl ⟨("relay_error",_),by simp [ownKinds],h3,rfl⟩
  · obtain ⟨fs,_,rfl⟩ := map_eq_ok.mp h
    exact Or.inl ⟨("unavailable",_),by simp [ownKinds],h4,rfl⟩
  · cases h
    exact Or.inl ⟨("confidentiality",_),by simp [ownKinds],h5,rfl⟩
  · cases h
    exact Or.inl ⟨("group",_),by simp [ownKinds],h6,rfl⟩
  · cases h
    exact Or.inl ⟨("refused",_),by simp [ownKinds],h7,rfl⟩
  · exact Or.inr ⟨by simp [*,ownKinds],h⟩

/-- The table gives the class of a kind it has, and otherwise a `MaculaError` that quotes it. -/
theorem failedWithoutAKind_cases (h : failedWithoutAKind repr k m = .ok e) :
    (∃ s c, k = .str s ∧ kinds.lookup s = some c ∧ e.cls = c) ∨
      (∀ s, k = .str s → kinds.lookup s = none) ∧ e.cls = .maculaError ∧ repr k <:+: e.text := by
  obtain ⟨found,hf,rfl⟩ := map_eq_ok.mp h
  cases found with
  | none =>
    refine Or.inr ⟨?_,rfl,_,_,(List.append_assoc _ _ m).symm⟩
    rintro s rfl
    exact Except.ok.inj hf
  | some c =>
    cases k with
    | str s => exact Or.inl ⟨s,c,rfl,Except.ok.inj hf,rfl⟩
    | _ => simp [kindsGet,Json.hashable] at hf

end Results

theorem isMacula_of_lookup {s : PyStr} {c : ErrorClass} (h : kinds.lookup s = some c) :
    c.isMacula = true := by
  have hall : ∀ x ∈ kinds, x.2.isMacula = true := by decide
  obtain ⟨l₁,l₂,hl,_⟩ := List.lookup_eq_some_iff.mp h
  exact hall (s,c) (by simp [hl])

theorem lookup_own {x : String × ErrorClass} (hx : x ∈ ownKinds) :
    contractKinds.lookup (.ofString x.1) = some x.2 := by
  have hall : ∀ x ∈ ownKinds, contractKinds.lookup (.ofString x.1) = some x.2 := by decide
  exact hall x hx

theorem lookup_of_not_own {s : PyStr} (h : ∀ x ∈ ownKinds, (Json.str s).is x.1 = false) :
    contractKinds.lookup s = kinds.lookup s := by
  have hn : (ownKinds.map (fun x => (PyStr.ofString x.1,x.2))).lookup s = none := by
    apply List.lookup_eq_none_iff.mpr
    intro y hy
    obtain ⟨x,hx,rfl⟩ := List.mem_map.mp hy
    simpa [Json.is] using h x hx
  rw [contractKinds,List.lookup_append,hn,Option.none_or]

section Results
variable {repr : Json → PyStr} {parse : PyStr → Option Json}
variable {ms : List (PyStr × Json)} {k : Json} {m : PyStr} {e : NativeException}

/-- The class of an error whose kind is a text. -/
theorem errorOf_cls {s : PyStr} (h : errorOf repr ms (.str s) m = .ok e) :
    e.cls = (contractKinds.lookup s).getD .maculaError := by
  rcases errorOf_cases h with ⟨x,hx,hs,hc⟩ | ⟨hn,ht⟩
  · rw [Json.str.inj (Json.is_iff.mp hs),lookup_own hx,hc,Option.getD_some]
  · rw [lookup_of_not_own hn]
    rcases failedWithoutAKind_cases ht with ⟨t,c,hst,hl,hc⟩ | ⟨hl,hc,_⟩
    · rw [Json.str.inj hst,hl,hc,Option.getD_some]
    · rw [hl s rfl,hc,Option.getD_none]

/-- A kind that is not the contract's comes out as a `MaculaError` that quotes it. -/
theorem errorOf_unknown (h : errorOf repr ms k m = .ok e)
    (hk : ∀ s, k = .str s → contractKinds.lookup s = none) :
    e.cls = .maculaError ∧ repr k <:+: e.text := by
  rcases errorOf_cases h with ⟨x,hx,hs,_⟩ | ⟨hn,ht⟩
  · have hl := hk _ (Json.is_iff.mp hs)
    rw [lookup_own hx] at hl
    cases hl
  · rcases failedWithoutAKind_cases ht with ⟨s,c,rfl,hl,_⟩ | ⟨_,h⟩
    · have hl' := hk s rfl
      rw [lookup_of_not_own hn,hl] at hl'
      cases hl'
    · exact h

/-- Only the kind `cancelled` comes out as a `NativeCancelled`. -/
theorem errorOf_cancelled (h : errorOf repr ms k m = .ok e) :
    e.cls = .nativeCancelled ↔ k = .str (.ofString "cancelled") := by
  constructor
  · intro hc
    rcases errorOf_cases h with ⟨x,hx,hs,he⟩ | ⟨_,ht⟩
    · have hall : ∀ x ∈ ownKinds, x.2 = .nativeCancelled → x.1 = "cancelled" := by decide
      rw [← hall x hx (he.symm.trans hc)]
      exact Json.is_iff.mp hs
    · rcases failedWithoutAKind_cases ht with ⟨s,c,_,hl,he⟩ | ⟨_,he,_⟩
      · have hm := isMacula_of_lookup hl
        rw [← he,hc] at hm
        cases hm
      · rw [hc] at he
        cases he
  · rintro rfl
    rw [errorOf_cls h]
    rfl

/-- An object with a kind, of which an error is made. -/
theorem namesKind_of_errorOf {text : PyStr} (hk : member? ms "kind" = some k)
    (h : errorOf repr ms k m = .ok e) : NamesKind repr text (some (.obj ms)) e where
  cancelled := by
    rw [kindOf,hk,Option.some.injEq]
    exact errorOf_cancelled h
  known := by
    intro s c hs hc
    rw [kindOf,hk] at hs
    obtain rfl := Option.some.inj hs
    rw [errorOf_cls h,hc,Option.getD_some]
  unknown := by
    intro hn
    rw [kindOf,hk] at hn ⊢
    exact errorOf_unknown h (fun s hs => hn s (congrArg some hs))

/-- A text that names no kind is quoted whole. -/
theorem namesKind_of_text {text : PyStr} {parsed : Option Json} (hk : kindOf parsed = none) :
    NamesKind repr text parsed (.failed .maculaError
      (.ofString "macula-py: the native layer failed with " ++ repr (.str text))) where
  cancelled := by simp [hk,NativeException.cls]
  known := by simp [hk]
  unknown := by
    intro _
    rw [hk,Option.getD_none]
    exact ⟨rfl,List.infix_append_right⟩

/-- `native_error` returns an error, of the class of its kind, for exactly the texts whose kind
is hashable and whose failures, where they are read, are a collection. -/
theorem nativeError_returns_iff (repr : Json → PyStr) (parse : PyStr → Option Json)
    (text : PyStr) :
    (∃ e, nativeError repr parse text = .ok e ∧ NamesKind repr text (parse text) e) ↔
      ¬ Breaks (parse text) := by
  unfold nativeError
  split
  · next ms hp =>
    rw [hp]
    split
    · next k hk =>
      have hb : ¬ Breaks (some (.obj ms)) ↔ ∃ e, errorOf repr ms k
          (str repr ((errorGet ms "message").or k)) = .ok e := by
        rw [errorOf_ok_iff,Json.or_iterable]
        simp [Breaks,hk]
      rw [hb]
      exact ⟨fun ⟨e,he,_⟩ => ⟨e,he⟩,fun ⟨e,he⟩ => ⟨e,he,namesKind_of_errorOf hk he⟩⟩
    · next hk => exact iff_of_true ⟨_,rfl,namesKind_of_text hk⟩ (by simp [Breaks,hk])
  · next hno =>
    have hk : kindOf (parse text) = none := by
      unfold kindOf
      split
      · next hp => exact absurd hp (hno _)
      · rfl
    refine iff_of_true ⟨_,rfl,namesKind_of_text hk⟩ ?_
    unfold Breaks
    split
    · next hp => exact absurd hp (hno _)
    · exact not_false

end Results

/-- The text of an object whose kind is a list. -/
def listKind : PyStr := .ofString "\x7b\"kind\":[]\x7d"

def parseListKind (text : PyStr) : Option Json :=
  if text = listKind then some (.obj [(.ofString "kind",.arr [])]) else none

/-- `native_error` raises on it, from outside its `try`. -/
theorem nativeError_raises_listKind : nativeError (fun _ => []) parseListKind listKind =
    .error (.typeError "unhashable type: 'list'") := rfl

end MaculaPy.Wire
