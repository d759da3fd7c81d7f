/-
What a source that is posted to be checked, evaluated or compiled is answered. The size of the body is
looked at first, then the headers, if they matter, and then the source, and each has a status of its
own; past these nothing fails, since a checked source has a value and a valid module and that can be
written in every format. What a store has kept is no different from what would be compiled.
-/
import LetIf.Proofs.Program
import LetIf.Proofs.Service.History

namespace LetIf.Service

open Cache (Database Store View)

/-! ## Headers -/

/-- The name of the format that a request asks for. -/
def Request.formatName (rq : Request) : Text :=
  if rq.header formatHeader = [] then Format.wasm.name else rq.header formatHeader

/-- The request asks for a strategy: the one that its header names, and `default` if it has none. -/
def Request.Prefers (rq : Request) (default s : Strategy) : Prop :=
  if rq.header strategyHeader = [] then s = default else s.Called (rq.header strategyHeader)

/-- The headers ask for a format or for a strategy that does not exist. -/
def Request.Misnames (rq : Request) : Prop :=
  rq.formatName ∉ Format.all.map Format.name ∨
    rq.header strategyHeader ≠ [] ∧ ∀ s : Strategy, ¬ s.Called (rq.header strategyHeader)

section Headers

variable {rq : Request}

theorem ofName?_eq_some {t : Text} {f : Format} (h : Format.ofName? t = some f) : f.name = t := by
  have := List.find?_some h
  simpa using this

theorem ofName?_eq_none {t : Text} (h : Format.ofName? t = none) : t ∉ Format.all.map Format.name := by
  intro hmem
  obtain ⟨f, hf, rfl⟩ := List.mem_map.1 hmem
  have := List.find?_eq_none.1 h f hf
  simp at this

theorem format_cases (rq : Request) :
    (∃ f, rq.format = .ok f ∧ f.name = rq.formatName) ∨
      rq.format = .error .unknownFormat ∧ rq.formatName ∉ Format.all.map Format.name := by
  unfold Request.format Request.formatName
  by_cases h : rq.header formatHeader = []
  · rw [if_pos h, h]
    exact .inl ⟨.wasm, rfl, rfl⟩
  · have hempty : (rq.header formatHeader).isEmpty = false := by simpa using h
    simp only [hempty, if_neg h, Bool.false_eq_true, if_false]
    cases hf : Format.ofName? (rq.header formatHeader) with
    | some f => exact .inl ⟨f, rfl, ofName?_eq_some hf⟩
    | none => exact .inr ⟨rfl, ofName?_eq_none hf⟩

theorem target_cases (rq : Request) (target : Target) :
    (∃ s, rq.target target = .ok ⟨s, target.exportName⟩ ∧ rq.Prefers target.strategy s) ∨
      rq.target target = .error (.unknownStrategy (rq.header strategyHeader)) ∧
        rq.header strategyHeader ≠ [] ∧ ∀ s : Strategy, ¬ s.Called (rq.header strategyHeader) := by
  unfold Request.target Request.Prefers
  by_cases h : rq.header strategyHeader = []
  · rw [h]
    exact .inl ⟨_, rfl, rfl⟩
  · have hempty : (rq.header strategyHeader).isEmpty = false := by simpa using h
    simp only [hempty, if_neg h, Bool.false_eq_true, if_false]
    cases hs : Strategy.ofName? (rq.header strategyHeader) with
    | some s => exact .inl ⟨s, rfl, Strategy.called_of_ofName? hs⟩
    | none => exact .inr ⟨rfl, h, Strategy.not_called_of_ofName? hs⟩

theorem not_misnames {f : Format} {default s : Strategy} (hf : f.name = rq.formatName)
    (hs : rq.Prefers default s) : ¬ rq.Misnames := by
  rintro (h | ⟨hheader, hunknown⟩)
  · refine h (hf ▸ List.mem_map_of_mem ?_)
    cases f <;> decide
  · rw [Request.Prefers, if_neg hheader] at hs
    exact hunknown s hs

theorem named_of_prefers {default s : Strategy} (h : rq.Prefers default s)
    (hd : default = .select ∨ default = .branch) : s = .select ∨ s = .branch := by
  unfold Request.Prefers at h
  split at h
  · exact h ▸ hd
  · exact h.1

end Headers

/-! ## Answers -/

/-- The text that a task gives for a source. -/
def Gives [Json.Replacement] (target : Target) (rq : Request) (task : Task) (text : Text) : Prop :=
  match task with
  | .check => ∃ t, Program.check (arrived rq.body) = .ok t ∧ text = t.model.kind.name
  | .eval => ∃ v m, Program.eval (arrived rq.body) = .ok (v, m) ∧ text = v.text
  | .compile => ∃ (f : Format) (s : Strategy) (m : Module),
      f.name = rq.formatName ∧ rq.Prefers target.strategy s ∧
      Program.compile ⟨s, target.exportName⟩ (arrived rq.body) = .ok m ∧ f.encode m = .ok text
  | .run => False

/-- The body and the headers of a request are such that its source is looked at. -/
structure Proceeds (task : Task) (rq : Request) : Prop where
  fits : (arrived rq.body).length ≤ limit
  named : task = .compile → ¬ rq.Misnames

/-- What is answered to a source that is posted for a task. -/
structure Answers [Json.Replacement] (target : Target) (task : Task) (rq : Request) (r : Response) : Prop where
  tooLarge : r.status = 413 ↔ 65536 < (arrived rq.body).length
  misnamed : r.status = 400 ↔ (arrived rq.body).length ≤ limit ∧ task = .compile ∧ rq.Misnames
  refused : r.status = 422 ↔ Proceeds task rq ∧ ∃ f, Program.check (arrived rq.body) = .error f
  report : r.status = 422 →
    ∃ e, Program.check (arrived rq.body) = .error (.refused e) ∧ r.body = e.report.text
  served : r.status = 200 ↔ Proceeds task rq ∧ ∃ t, Program.check (arrived rq.body) = .ok t
  result : r.status = 200 → Gives target rq task r.body
  noDefect : r.status ≠ 500

section Answers

variable [Json.Replacement] {target : Target} {task : Task} {rq : Request} {r : Response}

theorem Answers.of_tooLarge (h : limit < (arrived rq.body).length) (hr : r.status = 413) :
    Answers target task rq r where
  tooLarge := iff_of_true hr h
  misnamed := iff_of_false (by rw [hr]; decide) fun hm => Nat.not_le_of_gt h hm.1
  refused := iff_of_false (by rw [hr]; decide) fun hp => Nat.not_le_of_gt h hp.1.fits
  report h422 := absurd (hr.symm.trans h422) (by decide)
  served := iff_of_false (by rw [hr]; decide) fun hp => Nat.not_le_of_gt h hp.1.fits
  result h200 := absurd (hr.symm.trans h200) (by decide)
  noDefect := by rw [hr]; decide

theorem Answers.of_misnamed (hfits : (arrived rq.body).length ≤ limit) (htask : task = .compile)
    (h : rq.Misnames) (hr : r.status = 400) : Answers target task rq r where
  tooLarge := iff_of_false (by rw [hr]; decide) (Nat.not_lt_of_ge hfits)
  misnamed := iff_of_true hr ⟨hfits, htask, h⟩
  refused := iff_of_false (by rw [hr]; decide) fun hp => hp.1.named htask h
  report h422 := absurd (hr.symm.trans h422) (by decide)
  served := iff_of_false (by rw [hr]; decide) fun hp => hp.1.named htask h
  result h200 := absurd (hr.symm.trans h200) (by decide)
  noDefect := by rw [hr]; decide

theorem Answers.of_refused (hp : Proceeds task rq) {e : SourceError}
    (h : Program.check (arrived rq.body) = .error (.refused e)) (hr : r.status = 422)
    (hbody : r.body = e.report.text) : Answers target task rq r where
  tooLarge := iff_of_false (by rw [hr]; decide) (Nat.not_lt_of_ge hp.fits)
  misnamed := iff_of_false (by rw [hr]; decide) fun hm => hp.named hm.2.1 hm.2.2
  refused := iff_of_true hr ⟨hp, _, h⟩
  report _ := ⟨e, h, hbody⟩
  served := iff_of_false (by rw [hr]; decide) (by rw [h]; exact nofun)
  result h200 := absurd (hr.symm.trans h200) (by decide)
  noDefect := by rw [hr]; decide

theorem Answers.of_served (hp : Proceeds task rq) {t : Typing.Elaborated Position}
    (h : Program.check (arrived rq.body) = .ok t) (hr : r.status = 200)
    (hbody : Gives target rq task r.body) : Answers target task rq r where
  tooLarge := iff_of_false (by rw [hr]; decide) (Nat.not_lt_of_ge hp.fits)
  misnamed := iff_of_false (by rw [hr]; decide) fun hm => hp.named hm.2.1 hm.2.2
  refused := iff_of_false (by rw [hr]; decide) (by rw [h]; exact nofun)
  report h422 := absurd (hr.symm.trans h422) (by decide)
  served := iff_of_true hr ⟨hp, t, h⟩
  result _ := hbody
  noDefect := by rw [hr]; decide

end Answers

/-- Without a store nothing is known, and neither is with one that has been closed. -/
theorem known_of_closed {D : Type} [Database D] {view : D → View} (h : Database.Laws view) {d : D}
    (hd : (view d).isOpen = false) (key : Text) : known (none : Option D) key = none ∧ known (some d) key = none := by
  refine ⟨rfl, ?_⟩
  unfold known
  simp only [Cache.get_closed h hd]

/-! ## Tasks -/

section Tasks

variable {target : Target} {task : Task} {rq : Request}

/-- A compilation by a strategy that has a name fails only as checking does. -/
theorem result_cases [Json.Replacement] {c : Compilation} (hlen : c.source.length ≤ limit)
    (hs : c.target.strategy = .select ∨ c.target.strategy = .branch) :
    (∃ e, Program.check c.source = .error (.refused e) ∧ c.result = .error (.source e)) ∨
      ∃ t m data, Program.check c.source = .ok t ∧ Program.compile c.target c.source = .ok m ∧
        c.format.encode m = .ok data ∧ c.result = .ok data := by
  cases hcheck : Program.check c.source with
  | error f =>
    obtain ⟨e, rfl⟩ := Program.check_eq_error hcheck
    have hcompile : Program.compile c.target c.source = .error (.refused e) :=
      bind_eq_error.2 (.inl hcheck)
    refine .inl ⟨e, rfl, ?_⟩
    unfold Compilation.result
    rw [hcompile]
    rfl
  | ok t =>
    have hlt : c.source.length < 2 ^ 32 := Nat.lt_of_le_of_lt hlen (by decide)
    obtain ⟨m, hm, hvalid⟩ := Program.exists_compile hcheck hlt c.target hs
    obtain ⟨data, hdata⟩ := c.format.exists_encode_of_validate hvalid
    refine .inr ⟨t, m, data, rfl, hm, hdata, ?_⟩
    unfold Compilation.result
    rw [hm]
    exact mapError_eq_ok.2 hdata

variable [Engine.Runtime] [Json.Replacement]

theorem answers_of_check (hfits : (arrived rq.body).length ≤ limit)
    (htask : Task.ofRoute? rq.route = some .check) :
    Answers target .check rq (rq.respond (perform target (fun _ => none) rq (arrived rq.body))) := by
  have hproceeds : Proceeds .check rq := ⟨hfits, nofun⟩
  unfold perform
  rw [htask]
  cases hcheck : Program.check (arrived rq.body) with
  | error f =>
    obtain ⟨e, rfl⟩ := Program.check_eq_error hcheck
    exact .of_refused hproceeds hcheck rfl rfl
  | ok t => exact .of_served hproceeds hcheck rfl ⟨t, hcheck, rfl⟩

theorem answers_of_eval (hfits : (arrived rq.body).length ≤ limit)
    (htask : Task.ofRoute? rq.route = some .eval) :
    Answers target .eval rq (rq.respond (perform target (fun _ => none) rq (arrived rq.body))) := by
  have hproceeds : Proceeds .eval rq := ⟨hfits, nofun⟩
  unfold perform
  rw [htask]
  cases hcheck : Program.check (arrived rq.body) with
  | error f =>
    obtain ⟨e, rfl⟩ := Program.check_eq_error hcheck
    have heval : Program.eval (arrived rq.body) = .error (.refused e) := bind_eq_error.2 (.inl hcheck)
    rw [heval]
    exact .of_refused hproceeds hcheck rfl rfl
  | ok t =>
    obtain ⟨v, heval⟩ := Program.exists_eval hcheck
    rw [heval]
    exact .of_served hproceeds hcheck rfl ⟨v, t.model, heval, rfl⟩

theorem answers_of_compile (hfits : (arrived rq.body).length ≤ limit)
    (htask : Task.ofRoute? rq.route = some .compile)
    (hs : target.strategy = .select ∨ target.strategy = .branch) :
    Answers target .compile rq (rq.respond (perform target (fun _ => none) rq (arrived rq.body))) := by
  unfold perform
  rw [htask]
  show Answers target .compile rq (rq.respond (compile target (fun _ => none) rq (arrived rq.body)))
  rw [compile_eq]
  unfold Request.compilation
  -- the format is looked at before the strategy, and both before the source
  obtain ⟨f, hf, hname⟩ | ⟨hf, hname⟩ := format_cases rq
  · obtain ⟨s, ht, hstrategy⟩ | ⟨ht, hheader, hunknown⟩ := target_cases rq target
    · let c : Compilation := ⟨f, ⟨s, target.exportName⟩, arrived rq.body⟩
      have hproceeds : Proceeds .compile rq := ⟨hfits, fun _ => not_misnames hname hstrategy⟩
      rw [hf, ht]
      show Answers target .compile rq (rq.respond (c.answer fun _ => none))
      unfold Compilation.answer
      obtain ⟨e, hcheck, hresult⟩ | ⟨t, m, data, hcheck, hm, hdata, hresult⟩ :=
        result_cases (c := c) hfits (named_of_prefers hstrategy hs)
      · rw [hresult]
        exact .of_refused hproceeds hcheck rfl rfl
      · rw [hresult]
        exact .of_served hproceeds hcheck rfl ⟨f, s, m, hname, hstrategy, hm, hdata⟩
    · rw [hf, ht]
      exact .of_misnamed hfits rfl (.inr ⟨hheader, hunknown⟩) rfl
  · rw [hf]
    exact .of_misnamed hfits rfl (.inl hname) rfl

/-- What is answered where no store decides. -/
theorem answers_alone (hpost : rq.method = Text.ofString "POST")
    (htask : Task.ofRoute? rq.route = some task) (hrun : task ≠ .run)
    (hs : target.strategy = .select ∨ target.strategy = .branch) :
    Answers target task rq (rq.respond (outcome target (fun _ => none) rq)) := by
  have hget : ¬ (Text.ofString "POST" == Text.ofString "GET" && rq.route.isEmpty) = true := by
    rw [show (Text.ofString "POST" == Text.ofString "GET") = false by decide, Bool.false_and]
    decide
  unfold outcome
  rw [hpost, if_neg (by decide), if_neg hget, if_neg (by decide)]
  by_cases hfits : (arrived rq.body).length ≤ limit
  · rw [if_pos hfits]
    cases task with
    | check => exact answers_of_check hfits htask
    | eval => exact answers_of_eval hfits htask
    | compile => exact answers_of_compile hfits htask hs
    | run => exact absurd rfl hrun
  · rw [if_neg hfits]
    exact .of_tooLarge (Nat.lt_of_not_le hfits) rfl

section Stores

variable {D : Type} [Database D] {view : D → View} (h : Database.Laws view)
include h

/-- What a store that knows nothing, or only what a history has left, lets be answered is what is answered
without a store. -/
theorem answers_of_store {store : Option D} (b : Buffer)
    (hstore : (∀ key, known store key = none) ∨ ∃ d pool turns, (∀ key, (view d).modules key = none) ∧
      store = (Shared.after ⟨some d, pool⟩ turns).store ∧ NoCollision (turns ++ [⟨target, rq, true, true, 0⟩]))
    (hpost : rq.method = Text.ofString "POST") (htask : Task.ofRoute? rq.route = some task)
    (hrun : task ≠ .run) (hs : target.strategy = .select ∨ target.strategy = .branch) :
    Answers target task rq (handle target store b rq).1 := by
  have hresponse : (handle target store b rq).1 = rq.respond (outcome target (known store) rq) :=
    (reply_eq target (known store) b rq).1
  have halone := answers_alone hpost htask hrun hs
  rw [hresponse]
  obtain hnone | ⟨d, pool, turns, hempty, rfl, hcollision⟩ := hstore
  · rw [funext hnone]
    exact halone
  · let t : Turn := ⟨target, rq, true, true, 0⟩
    have hnew : Remembers view (Shared.mk (some d) pool).store [] := remembers_empty hempty
    have hsame : rq.respond (outcome target (known _) rq) = t.alone D :=
      (hnew.after h turns).respond h t hcollision
    rw [hsame, t.alone_eq]
    exact halone

end Stores

end Tasks

/-- A small source that is posted. -/
def posted (path : Text) : Request := ⟨"POST", path, [], [⟨"if True then 1 else 2", true⟩]⟩

end LetIf.Service
