/-
What a database is taken to do, as laws over what can be told of a state: whether the database is open,
whether its data file has the bucket, and which modules are in it. Changes are atomic and what is entered
lasts; nil is read only where nothing was entered. From these laws each access of the cache has its
specification, and the built-in database keeps them.
-/
import LetIf.Cache.Builtin
import LetIf.Proofs.Except
import Mathlib.Data.Finset.Card

namespace LetIf.Cache

/-- What can be told of a state of a database. -/
@[ext]
structure View where
  isOpen : Bool
  hasBucket : Bool
  modules : Text → Option Text

namespace View

def opened (v : View) : View := { v with isOpen := true }

def withBucket (v : View) : View := { v with hasBucket := true }

def closed (v : View) : View := { v with isOpen := false }

def enter (v : View) (key module : Text) : View :=
  { v with modules := fun k => if k = key then some module else v.modules k }

end View

/-- The laws of a database, of whose states `view` tells. -/
structure Database.Laws {D : Type} [Database D] (view : D → View) : Prop where
  /-- A data file that is open is not opened again, and opening it finds what was entered before. -/
  open_ok {d d' : D} : Database.openFile d = (.ok (), d') → (view d).isOpen = false ∧ view d' = (view d).opened
  open_error {d d' : D} {f : Fault} : Database.openFile d = (.error f, d') → view d' = view d
  bucket_ok {d d' : D} : Database.makeBucket d = (.ok (), d') → view d' = (view d).withBucket
  bucket_error {d d' : D} {f : Fault} : Database.makeBucket d = (.error f, d') → view d' = view d
  /-- Also where closing reports a fault, the database is not open any more. -/
  close (d : D) : view (Database.closeFile d).2 = (view d).closed
  /-- Nil is read only where there is no module. -/
  read_ok {d : D} {key : Text} {found : Option Text} :
    Database.read d key = .ok found → found = (view d).modules key
  read_open {d : D} (key : Text) : (view d).isOpen = true → (view d).hasBucket = true →
    ∃ found, Database.read d key = .ok found
  read_closed {d : D} (key : Text) : (view d).isOpen = false → Database.read d key = .error .notOpen
  write_ok {d d' : D} {key module : Text} :
    Database.write d key module = (.ok (), d') → view d' = (view d).enter key module
  write_error {d d' : D} {key module : Text} {f : Fault} :
    Database.write d key module = (.error f, d') → view d' = view d
  count_open {d : D} : (view d).isOpen = true → (view d).hasBucket = true →
    ∃ keys : Finset Text, (∀ k, k ∈ keys ↔ (view d).modules k ≠ none) ∧ Database.keyCount d = .ok keys.card
  count_closed {d : D} : (view d).isOpen = false → Database.keyCount d = .error .notOpen

/-! ## Accesses -/

/-- What the copy of a module is: nothing of a module that has no bytes. -/
theorem appendTo_none (t : Text) : appendTo none t = if t.isEmpty then none else some t := by
  cases t <;> rfl

section Accesses

variable {D : Type} [Database D] {view : D → View} (h : Database.Laws view) {d d' : D}
include h

theorem openStore_ok {path : Text} (ho : openStore d path = (.ok (), d')) :
    (view d).isOpen = false ∧ view d' = (view d).opened.withBucket := by
  unfold openStore at ho
  split at ho
  · cases ho
  · rename_i d₁ hopen
    obtain ⟨hclosed, hview⟩ := h.open_ok hopen
    split at ho
    · cases ho
    · rename_i d₂ hbucket
      cases ho
      exact ⟨hclosed, by rw [h.bucket_ok hbucket, hview]⟩

theorem openStore_error {path : Text} {f : Failure} (ho : openStore d path = (.error f, d')) :
    view d' = view d := by
  unfold openStore at ho
  split at ho
  · rename_i hopen
    cases ho
    exact h.open_error hopen
  · rename_i d₁ hopen
    obtain ⟨hclosed, hview⟩ := h.open_ok hopen
    split at ho
    · rename_i g d₂ hbucket
      cases ho
      -- the data file was not open before, so closing it takes back that it was opened
      rw [h.close, h.bucket_error hbucket, hview]
      exact View.ext hclosed.symm rfl rfl
    · cases ho

theorem view_close : view (close d).2 = (view d).closed := h.close d

theorem put_ok {key module : Text} (hp : put d key module = (.ok (), d')) :
    view d' = (view d).enter key module := by
  obtain ⟨hr, hd⟩ := Prod.mk.inj hp
  exact h.write_ok (Prod.ext (mapError_eq_ok.1 hr) hd)

theorem put_error {key module : Text} {f : Failure} (hp : put d key module = (.error f, d')) :
    view d' = view d := by
  obtain ⟨hr, hd⟩ := Prod.mk.inj hp
  cases hw : (Database.write d key module).1 with
  | ok => rw [hw] at hr; cases hr
  | error g => exact h.write_error (Prod.ext hw hd)

/-- What is found under a key is in the database, and it has bytes. -/
theorem get_ok {key : Text} {found : Option Text} (hg : get d key = .ok found) :
    found = ((view d).modules key).filter fun module => !module.isEmpty := by
  obtain ⟨value, hr, hg⟩ := bind_eq_ok.1 hg
  rw [← h.read_ok (mapError_eq_ok.1 hr)]
  cases value with
  | none => exact (pure_eq_ok.1 hg).symm
  | some module =>
    rw [← pure_eq_ok.1 hg, appendTo_none]
    cases module <;> rfl

theorem get_open (ho : (view d).isOpen = true) (hb : (view d).hasBucket = true) (key : Text) :
    get d key = .ok (((view d).modules key).filter fun module => !module.isEmpty) := by
  obtain ⟨value, hr⟩ := h.read_open key ho hb
  have hg : ∃ found, get d key = .ok found := by
    unfold get
    rw [hr]
    cases value <;> exact ⟨_, rfl⟩
  obtain ⟨found, hg⟩ := hg
  rw [hg, get_ok h hg]

theorem get_closed (hc : (view d).isOpen = false) (key : Text) : get d key = .error (.reading .notOpen) := by
  unfold get
  rw [h.read_closed key hc]
  rfl

theorem size_open (ho : (view d).isOpen = true) (hb : (view d).hasBucket = true) :
    ∃ keys : Finset Text, (∀ k, k ∈ keys ↔ (view d).modules k ≠ none) ∧ size d = .ok keys.card := by
  obtain ⟨keys, hkeys, hcount⟩ := h.count_open ho hb
  exact ⟨keys, hkeys, mapError_eq_ok.2 hcount⟩

theorem size_closed (hc : (view d).isOpen = false) : size d = .error (.reading .notOpen) := by
  unfold size
  rw [h.count_closed hc]
  rfl

end Accesses

/-! ## The built-in database -/

theorem lookup_filter_ne {α : Type} {k key : Text} (h : key ≠ k) : ∀ entries : List (Text × α),
    (entries.filter fun e => e.1 != k).lookup key = entries.lookup key
  | [] => rfl
  | (a, x) :: entries => by
    have hrest := lookup_filter_ne h entries
    by_cases ha : a = k
    · subst ha
      have hkey : (key == a) = false := by simpa using h
      simp [List.lookup_cons, hkey, hrest]
    · simp [List.lookup_cons, ha, hrest]

theorem mem_map_fst {α : Type} {l : List (Text × α)} {k : Text} : k ∈ l.map Prod.fst ↔ l.lookup k ≠ none := by
  rw [Ne, List.lookup_eq_none_iff, List.mem_map]
  simp only [bne_iff_ne, not_forall, not_not]
  constructor
  · rintro ⟨p, hp, rfl⟩
    exact ⟨p, hp, rfl⟩
  · rintro ⟨p, hp, rfl⟩
    exact ⟨p, hp, rfl⟩

theorem Modules.find?_enter (m : Modules) (key module k : Text) :
    (m.enter key module).find? k = if k = key then some module else m.find? k := by
  unfold find? enter
  rw [List.lookup_cons]
  by_cases hk : k = key
  · subst hk
    simp
  · rw [if_neg hk, beq_eq_false_iff_ne.2 hk]
    exact lookup_filter_ne hk _

namespace Store

/-- The bucket of the built-in database is always there. -/
def view (s : Store) : View := ⟨s.isOpen, true, s.modules.find?⟩

theorem laws : Database.Laws view where
  open_ok {s s'} h := by
    change (if s.isOpen then _ else _) = _ at h
    split at h
    · cases h
    · rename_i hclosed
      cases h
      exact ⟨Bool.eq_false_iff.2 hclosed, rfl⟩
  open_error {s s' f} h := by
    change (if s.isOpen then _ else _) = _ at h
    split at h <;> cases h
    rfl
  bucket_ok {s s'} h := by
    change (if s.isOpen then _ else _) = _ at h
    split at h <;> cases h
    rfl
  bucket_error {s s' f} h := by
    change (if s.isOpen then _ else _) = _ at h
    split at h <;> cases h
    rfl
  close _ := rfl
  read_ok {s key found} h := by
    change (if s.isOpen then _ else _) = _ at h
    split at h <;> cases h
    rfl
  read_open {s} key ho _ := ⟨_, if_pos ho⟩
  read_closed {s} key hc := if_neg (by rw [show s.isOpen = false from hc]; decide)
  write_ok {s s' key module} h := by
    dsimp only [Database.write] at h
    split at h <;> cases h
    exact View.ext rfl rfl (funext (s.modules.find?_enter key module))
  write_error {s s' key module f} h := by
    dsimp only [Database.write] at h
    split at h <;> cases h
    rfl
  count_open {s} ho _ := by
    refine ⟨(s.modules.entries.map Prod.fst).toFinset, fun k => ?_, ?_⟩
    · rw [List.mem_toFinset]
      exact mem_map_fst
    · rw [List.toFinset_card_of_nodup s.modules.nodup, List.length_map]
      exact if_pos ho
  count_closed {s} hc := if_neg (by rw [show s.isOpen = false from hc]; decide)

end Store

end LetIf.Cache
