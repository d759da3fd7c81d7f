/-
The cache in one data file as a map. Whatever is done with it, closing and opening it again included, it
answers from the successful accesses of the past alone: a key has the module that was last entered under
it, and the size is the number of keys that were entered. The one exception is a module of no bytes, which
is counted but not found. This holds over every database that keeps the laws, wherever it fails.

The invariant is that the data file holds what was entered, and is open when it was opened last, in which
case it has its bucket.
-/
import LetIf.Proofs.Cache.Database
import Mathlib.Tactic

namespace LetIf.Cache

/-! ## Accesses -/

/-- What is done with the cache in a data file. -/
inductive Access where
  | reopen (path : Text)
  | close
  | put (key module : Text)
  | get (key : Text)
  | size
  deriving DecidableEq, Repr

/-- What comes of an access. -/
inductive Outcome where
  | done
  | found (module? : Option Text)
  | counted (n : Nat)
  | failed (f : Failure)
  deriving DecidableEq, Repr

/-- What comes of an access that may fail. -/
def Outcome.ofResult {α : Type} (shown : α → Outcome) : Except Failure α → Outcome
  | .ok a => shown a
  | .error f => .failed f

/-- What comes of an access that changes the state, with the state. -/
def changed {D : Type} : Except Failure Unit × D → Outcome × D
  | (r, d) => (.ofResult (fun _ => .done) r, d)

section Histories

variable {D : Type} [Database D]

def perform (d : D) : Access → Outcome × D
  | .reopen path => changed (openStore d path)
  | .close => changed (close d)
  | .put key module => changed (put d key module)
  | .get key => (.ofResult .found (get d key), d)
  | .size => (.ofResult .counted (size d), d)

variable (d : D)

theorem perform_reopen (path : Text) : perform d (.reopen path) = changed (openStore d path) := rfl

theorem perform_close : perform d .close = changed (close d) := rfl

theorem perform_put (key module : Text) : perform d (.put key module) = changed (put d key module) := rfl

theorem perform_get (key : Text) : perform d (.get key) = (.ofResult .found (get d key), d) := rfl

theorem perform_size : perform d .size = (.ofResult .counted (size d), d) := rfl

/-- The state after a history of accesses. -/
def after (d : D) : List Access → D
  | [] => d
  | a :: as => after (perform d a).2 as

/-- What came of a history of accesses. -/
def record (d : D) : List Access → List (Access × Outcome)
  | [] => []
  | a :: as => (a, (perform d a).1) :: record (perform d a).2 as

end Histories

/-! ## The past -/

/-- The past of a database: every access and what came of it, the latest last. -/
abbrev Past := List (Access × Outcome)

namespace Past

/-- The entry that an access has made. -/
def entry : Access × Outcome → Option (Text × Text)
  | (.put key module, .done) => some (key, module)
  | _ => none

/-- Whether an access has opened the database or closed it, which it does in any case. -/
def turn : Access × Outcome → Option Bool
  | (.reopen _, .done) => some true
  | (.close, _) => some false
  | _ => none

/-- The module that was last entered under a key. -/
def last? (past : Past) (key : Text) : Option Text := (past.filterMap entry).reverse.lookup key

/-- The keys under which modules were entered, without repetition. -/
def keys (past : Past) : Finset Text := ((past.filterMap entry).map Prod.fst).toFinset

def isOpen (past : Past) : Bool := (past.filterMap turn).getLastD false

variable {past : Past} {e : Access × Outcome}

theorem last?_concat_of_entry {key module : Text} (h : entry e = some (key, module)) (k : Text) :
    last? (past ++ [e]) k = if k = key then some module else last? past k := by
  unfold last?
  rw [List.filterMap_append, List.filterMap_cons_some h, List.filterMap_nil, List.reverse_append,
    List.reverse_singleton, List.singleton_append, List.lookup_cons]
  by_cases hk : k = key
  · subst hk; simp
  · rw [if_neg hk, beq_eq_false_iff_ne.2 hk]

theorem last?_concat (h : entry e = none) : last? (past ++ [e]) = last? past := by
  unfold last?
  rw [List.filterMap_append, List.filterMap_cons_none h, List.filterMap_nil, List.append_nil]

theorem isOpen_concat (e : Access × Outcome) : isOpen (past ++ [e]) = (turn e).getD (isOpen past) := by
  unfold isOpen
  rw [List.filterMap_append]
  cases h : turn e with
  | none => rw [List.filterMap_cons_none h, List.filterMap_nil, List.append_nil]; rfl
  | some b => rw [List.filterMap_cons_some h, List.filterMap_nil, List.getLastD_concat]; rfl

/-- The keys that were entered are those that have a module. -/
theorem mem_keys {k : Text} : k ∈ keys past ↔ last? past k ≠ none := by
  unfold keys last?
  rw [List.mem_toFinset, ← mem_map_fst, List.map_reverse, List.mem_reverse]

end Past

/-! ## The invariant -/

section Invariant

variable {D : Type} [Database D] {view : D → View} {d : D} {past : Past}

/-- What can be told of a state after its past. -/
structure Holds (v : View) (past : Past) : Prop where
  isOpen : v.isOpen = past.isOpen
  hasBucket : v.isOpen = true → v.hasBucket = true
  modules : ∀ k, v.modules k = past.last? k

/-- An access that enters nothing and neither opens nor closes may leave all as it was. -/
theorem Holds.idle {v : View} (hv : Holds v past) {e : Access × Outcome} (hentry : Past.entry e = none)
    (hturn : Past.turn e = none) : Holds v (past ++ [e]) where
  isOpen := by rw [Past.isOpen_concat, hturn]; exact hv.isOpen
  hasBucket := hv.hasBucket
  modules := by rw [Past.last?_concat hentry]; exact hv.modules

theorem Holds.closed {v : View} (hv : Holds v past) (o : Outcome) : Holds v.closed (past ++ [(.close, o)]) where
  isOpen := by rw [Past.isOpen_concat]; rfl
  hasBucket := nofun
  modules := by rw [Past.last?_concat rfl]; exact hv.modules

variable (h : Database.Laws view)
include h

/-- What an access does keeps the invariant, with the access in the past. -/
theorem Holds.perform (hv : Holds (view d) past) (a : Access) :
    Holds (view (perform d a).2) (past ++ [(a, (perform d a).1)]) := by
  cases a with
  | reopen path =>
    rw [perform_reopen]
    rcases ho : openStore d path with ⟨r, d'⟩
    cases r with
    | error f =>
      show Holds (view d') _
      rw [openStore_error h ho]
      exact hv.idle rfl rfl
    | ok =>
      show Holds (view d') _
      rw [(openStore_ok h ho).2]
      exact ⟨by rw [Past.isOpen_concat]; rfl, fun _ => rfl, by rw [Past.last?_concat rfl]; exact hv.modules⟩
  | close =>
    rw [perform_close]
    show Holds (view (close d).2) _
    rw [view_close h]
    exact hv.closed _
  | put key module =>
    rw [perform_put]
    rcases hp : put d key module with ⟨r, d'⟩
    cases r with
    | error f =>
      show Holds (view d') _
      rw [put_error h hp]
      exact hv.idle rfl rfl
    | ok =>
      show Holds (view d') _
      rw [put_ok h hp]
      refine ⟨by rw [Past.isOpen_concat]; exact hv.isOpen, hv.hasBucket, fun k => ?_⟩
      rw [changed, Past.last?_concat_of_entry rfl, ← hv.modules]
      rfl
  | get key =>
    rw [perform_get]
    cases get d key <;> exact hv.idle rfl rfl
  | size =>
    rw [perform_size]
    cases size d <;> exact hv.idle rfl rfl

theorem Holds.after (hv : Holds (view d) past) (as : List Access) :
    Holds (view (after d as)) (past ++ record d as) := by
  induction as generalizing d past with
  | nil =>
    rw [record, List.append_nil]
    exact hv
  | cons a as ih =>
    rw [record, List.append_cons]
    exact ih (hv.perform h a)

/-! ## Answers -/

theorem Holds.get_eq (hv : Holds (view d) past) (key : Text) : get d key =
    if past.isOpen then .ok ((past.last? key).filter fun module => !module.isEmpty)
    else .error (.reading .notOpen) := by
  rw [← hv.isOpen, ← hv.modules]
  cases ho : (view d).isOpen with
  | true => exact get_open h ho (hv.hasBucket ho) key
  | false => exact get_closed h ho key

theorem Holds.size_eq (hv : Holds (view d) past) : size d =
    if past.isOpen then .ok past.keys.card else .error (.reading .notOpen) := by
  rw [← hv.isOpen]
  cases ho : (view d).isOpen with
  | true =>
    obtain ⟨keys, hkeys, hsize⟩ := size_open h ho (hv.hasBucket ho)
    have hsame : keys = past.keys := by
      ext k
      rw [hkeys, hv.modules, Past.mem_keys]
    rw [hsize, hsame]
    rfl
  | false => exact size_closed h ho

/-- What has failed has changed nothing, unless it was to close the database. -/
theorem view_of_failed {a : Access} {f : Failure} (hf : (perform d a).1 = .failed f) (ha : a ≠ .close) :
    view (perform d a).2 = view d := by
  cases a with
  | reopen path =>
    rw [perform_reopen] at hf ⊢
    rcases ho : openStore d path with ⟨r, d'⟩
    rw [ho] at hf
    cases r with
    | error g => exact openStore_error h ho
    | ok => cases hf
  | close => exact absurd rfl ha
  | put key module =>
    rw [perform_put] at hf ⊢
    rcases hp : put d key module with ⟨r, d'⟩
    rw [hp] at hf
    cases r with
    | error g => exact put_error h hp
    | ok => cases hf
  | get key => rfl
  | size => rfl

/-- The cache in a data file is a map that lasts. From a data file without modules, and over any database
that keeps the laws, after any history of accesses, whichever of them have failed: an open cache gives for
a key the module that was last entered under it, unless that has no bytes, and its size is the number of
keys that were entered; a closed one gives nothing. What fails changes none of the modules, and if it was
not to close the database it changes nothing at all. -/
theorem answers_from_past {d : D} (hclosed : (view d).isOpen = false) (hblank : ∀ k, (view d).modules k = none)
    (as : List Access) :
    let now := after d as
    let past : Past := record d as
    (∀ key, get now key =
      if past.isOpen then .ok ((past.last? key).filter fun module => !module.isEmpty)
      else .error (.reading .notOpen)) ∧
    (size now = if past.isOpen then .ok past.keys.card else .error (.reading .notOpen)) ∧
    ∀ a f, (perform now a).1 = .failed f →
      (view (perform now a).2).modules = (view now).modules ∧
        (a ≠ .close → view (perform now a).2 = view now) := by
  have hstart : Holds (view d) [] := ⟨hclosed, fun ho => absurd ho (by rw [hclosed]; decide), hblank⟩
  have hv : Holds (view (after d as)) (record d as) := Holds.after h hstart as
  refine ⟨hv.get_eq h, hv.size_eq h, fun a f hf => ⟨?_, view_of_failed h hf⟩⟩
  by_cases ha : a = .close
  · subst ha
    have hview : view (perform (after d as) .close).2 = (view (after d as)).closed := view_close h
    rw [hview]
    rfl
  · rw [view_of_failed h hf ha]

end Invariant

/-- A data file that is not there yet. -/
def Store.blank : Store := Store.empty.close

/-- A data file that is opened twice at once, and again after it was closed, in which a module has been
entered in place of another, and one of no bytes. -/
def reopenings : List Access :=
  [.reopen "k.db", .put "k" "a", .reopen "k.db", .put "k" "bc", .put "" "d", .close, .put "l" "e",
    .reopen "k.db", .put "m" []]

theorem answers_from_past_reopenings :
    get (after Store.blank reopenings) "k" = .ok (some "bc") ∧ get (after Store.blank reopenings) "l" = .ok none ∧
      size (after Store.blank reopenings) = .ok 2 := by
  obtain ⟨hget, hsize, -⟩ := answers_from_past Store.laws (d := Store.blank) rfl (fun _ => rfl) reopenings
  have hkeys : Past.keys (record Store.blank reopenings) = {Text.ofString "k", Text.ofString "m"} := by
    decide +kernel
  exact ⟨(hget "k").trans (by decide +kernel), (hget "l").trans (by decide +kernel),
    hsize.trans (by rw [hkeys]; decide +kernel)⟩

/-- A module of no bytes is entered and counted, and yet not found. -/
theorem get_emptyModule :
    let as : List Access := [.reopen "k.db", .put "k" []]
    Past.last? (record Store.blank as) "k" = some [] ∧ get (after Store.blank as) "k" = .ok none ∧
      size (after Store.blank as) = .ok 1 :=
  ⟨rfl, rfl, rfl⟩

end LetIf.Cache
