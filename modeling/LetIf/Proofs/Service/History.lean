/-
The service has no memory. Requests are served one after another, by targets of any kind, with a
store of modules and a pool of buffers in common, and each may find the store unreadable or
unwritable; still every one is answered as it would be alone. A buffer shows nothing of what was in
it. Of the store the invariant is that every module in it is the result of a compilation that was
asked for before, under its key; and as long as no two compilations that are asked for have colliding
keys, a key determines the compilation and with it the result. The store may be kept by any database that
keeps the laws.
-/
import LetIf.Engine.Run
import LetIf.Proofs.Cache.Database
import LetIf.Proofs.Cache.Key
import LetIf.Proofs.Except
import LetIf.Proofs.Service.Payload
import LetIf.Service.Handler

namespace LetIf.Service

open Cache (Database Job Store View)

/-! ## What a request comes to, whatever buffer is used -/

section Outcomes

variable [Engine.Runtime] [Json.Replacement]

/-- What is found for a request, or why it is refused. -/
def outcome (target : Target) (known : Text → Option Text) (rq : Request) :
    Except Refusal (Answer × Option Entry) :=
  if rq.method == Text.ofString "OPTIONS" then .ok (⟨none, []⟩, none)
  else if rq.method == Text.ofString "GET" && rq.route.isEmpty then
    .ok (⟨none, "exprc " ++ Program.version⟩, none)
  else if rq.method != Text.ofString "POST" then .error .methodNotAllowed
  else if (arrived rq.body).length ≤ limit then perform target known rq (arrived rq.body)
  else .error .tooLarge

/-- The module that is to be kept. -/
def fresh? : Except Refusal (Answer × Option Entry) → Option Entry
  | .ok (_, new?) => new?
  | .error _ => none

theorem reply_eq (target : Target) (known : Text → Option Text) (b : Buffer) (rq : Request) :
    (reply target known b rq).response = rq.respond (outcome target known rq) ∧
      (reply target known b rq).fresh? = fresh? (outcome target known rq) := by
  unfold reply outcome
  split
  · exact ⟨rfl, rfl⟩
  split
  · exact ⟨rfl, rfl⟩
  split
  · exact ⟨rfl, rfl⟩
  by_cases hfits : (arrived rq.body).length ≤ limit
  · obtain ⟨hcomplete, hbytes⟩ := Payload.read_of_le b hfits
    simp only [hcomplete, hbytes, if_pos hfits, if_true, true_and]
    rfl
  · have hcomplete := Payload.read_of_lt b (Nat.lt_of_not_le hfits)
    simp only [hcomplete, if_neg hfits, Bool.false_eq_true, if_false, true_and]
    rfl

end Outcomes

/-! ## Compilations -/

/-- All that decides a compilation. -/
structure Compilation where
  format : Format
  target : Target
  source : Text
  deriving DecidableEq, Repr

namespace Compilation

def job (c : Compilation) : Job := ⟨c.source, c.format.name, c.target.strategy.name, c.target.name⟩

def result [Json.Replacement] (c : Compilation) : Except Refusal Text := do
  let m ← (Program.compile c.target c.source).mapError .ofProgram
  (c.format.encode m).mapError .defect

/-- Compilations of the same job are the same. -/
theorem eq_of_job {c c' : Compilation} (h : c.job = c'.job) : c = c' := by
  obtain ⟨format, ⟨strategy, name⟩, source⟩ := c
  obtain ⟨format', ⟨strategy', name'⟩, source'⟩ := c'
  simp only [job, Job.mk.injEq] at h
  obtain ⟨rfl, hformat, hstrategy, rfl⟩ := h
  rw [Format.name_injective hformat, Strategy.name_injective hstrategy]

theorem bounded_job {c : Compilation} (h : c.source.length ≤ limit) : c.job.Bounded where
  format := by
    have := c.format.length_name_le
    exact Nat.lt_of_le_of_lt this (by decide)
  strategy := by
    have := c.target.strategy.length_name_le
    exact Nat.lt_of_le_of_lt this (by decide)
  source := Nat.lt_of_le_of_lt h (by decide)

end Compilation

/-- The compilation of a source that a request names by its headers. -/
def Request.compilation (rq : Request) (target : Target) (src : Text) : Except Refusal Compilation := do
  let format ← rq.format
  let target ← rq.target target
  return ⟨format, target, src⟩

theorem source_of_compilation {rq : Request} {target : Target} {src : Text} {c : Compilation}
    (h : rq.compilation target src = .ok c) : c.source = src := by
  obtain ⟨_, -, h⟩ := bind_eq_ok.1 h
  obtain ⟨_, -, h⟩ := bind_eq_ok.1 h
  cases h
  rfl

/-- What is answered to a compilation. -/
def Compilation.answer [Json.Replacement] (c : Compilation) (known : Text → Option Text) :
    Except Refusal (Answer × Option Entry) :=
  match known c.job.key with
  | some module => .ok (⟨some c.format.mediaType, module⟩, none)
  | none => c.result >>= fun module =>
    .ok (⟨some c.format.mediaType, module⟩, some ⟨c.job.key, module⟩)

theorem compile_eq [Json.Replacement] (target : Target) (known : Text → Option Text) (rq : Request) (src : Text) :
    compile target known rq src = rq.compilation target src >>= fun c => c.answer known := by
  unfold compile Request.compilation
  simp only [bind_assoc, pure_bind]
  refine congrArg _ (funext fun format => congrArg _ (funext fun target => ?_))
  unfold Compilation.answer Compilation.result Compilation.job
  cases known (Job.key ⟨src, format.name, target.strategy.name, target.name⟩) with
  | some module => rfl
  | none =>
    simp only [bind_assoc]
    rfl

/-- A module that is to be kept is the result of the compilation that was asked for. -/
theorem fresh?_answer [Json.Replacement] {c : Compilation} {known : Text → Option Text} {e : Entry}
    (h : fresh? (c.answer known) = some e) : e.key = c.job.key ∧ c.result = .ok e.module := by
  unfold Compilation.answer at h
  split at h
  · cases h
  · cases hr : c.result with
    | error r => rw [hr] at h; cases h
    | ok module => rw [hr] at h; cases h; exact ⟨rfl, rfl⟩

theorem answer_of_result [Json.Replacement] {c : Compilation} {known : Text → Option Text} (rq : Request)
    (h : ∀ module, known c.job.key = some module → c.result = .ok module) :
    rq.respond (c.answer known) = rq.respond (c.answer fun _ => none) := by
  unfold Compilation.answer
  cases hk : known c.job.key with
  | none => rfl
  | some module =>
    simp only [h module hk]
    rfl

/-- The request posts a source to be compiled, and `c` is what it asks for. -/
structure Asks (target : Target) (rq : Request) (c : Compilation) : Prop where
  method : rq.method = Text.ofString "POST"
  fits : (arrived rq.body).length ≤ limit
  task : Task.ofRoute? rq.route = some .compile
  headers : rq.compilation target (arrived rq.body) = .ok c

theorem Asks.source {target : Target} {rq : Request} {c : Compilation} (h : Asks target rq c) :
    c.source.length ≤ limit := by
  rw [source_of_compilation h.headers]
  exact h.fits

/-- All that a request can come to: it is answered a compilation that it asks for, or something that
no store decides and none is to keep. -/
theorem outcome_cases [Engine.Runtime] [Json.Replacement] (target : Target) (rq : Request) :
    (∃ c, Asks target rq c ∧ ∀ known, outcome target known rq = c.answer known) ∨
      ∃ r, fresh? r = none ∧ ∀ known, outcome target known rq = r := by
  unfold outcome
  split
  · exact .inr ⟨_, rfl, fun _ => rfl⟩
  split
  · exact .inr ⟨_, rfl, fun _ => rfl⟩
  split
  · exact .inr ⟨_, rfl, fun _ => rfl⟩
  rename_i hpost
  split
  case isFalse => exact .inr ⟨_, rfl, fun _ => rfl⟩
  rename_i hfits
  -- of the tasks only compiling looks at what is known
  unfold perform
  cases htask : Task.ofRoute? rq.route with
  | none => exact .inr ⟨_, rfl, fun _ => rfl⟩
  | some task =>
    cases task with
    | check =>
      refine .inr ⟨_, ?_, fun _ => rfl⟩
      cases Program.check (arrived rq.body) <;> rfl
    | eval =>
      refine .inr ⟨_, ?_, fun _ => rfl⟩
      cases Program.eval (arrived rq.body) <;> rfl
    | run =>
      refine .inr ⟨_, ?_, fun _ => rfl⟩
      cases rq.target target with
      | error r => rfl
      | ok target =>
        show fresh? ((Program.run target (arrived rq.body)).mapError Refusal.ofRun >>= _) = none
        cases Program.run target (arrived rq.body) <;> rfl
    | compile =>
      simp only [compile_eq]
      cases hc : rq.compilation target (arrived rq.body) with
      | error r => exact .inr ⟨_, rfl, fun _ => rfl⟩
      | ok c => exact .inl ⟨c, ⟨by simpa using hpost, hfits, htask, hc⟩, fun _ => rfl⟩

/-! ## Histories -/

/-- What all requests have in common: a store, and the buffers that are not in use. -/
structure Shared (D : Type) where
  store : Option D
  pool : List Buffer

/-- A request that is served: by which target, whether the store can be read and written meanwhile,
and the number of the buffer that is used, a fresh one if the pool has none of that number. -/
structure Turn where
  target : Target
  request : Request
  reads : Bool
  writes : Bool
  pick : Nat

def Turn.Asks (t : Turn) (c : Compilation) : Prop := Service.Asks t.target t.request c

/-- No two compilations that are asked for have keys that are the same without being those of the
same bytes. -/
def NoCollision (turns : List Turn) : Prop :=
  ∀ t ∈ turns, ∀ t' ∈ turns, ∀ c c', t.Asks c → t'.Asks c' →
    c.job.key = c'.job.key → c.job.material = c'.job.material

/-- Every module in the store is the result of a compilation of the past, under its key. -/
def Remembers [Json.Replacement] {D : Type} (view : D → View) (store : Option D) (past : List Turn) : Prop :=
  ∀ d ∈ store, ∀ key module, (view d).modules key = some module →
    ∃ t ∈ past, ∃ c, t.Asks c ∧ c.job.key = key ∧ c.result = .ok module

section Stores

variable {D : Type} {view : D → View} {past : List Turn}

theorem remembers_empty [Json.Replacement] {d : D} (h : ∀ key, (view d).modules key = none) :
    Remembers view (some d) past := by
  intro d' hd key module hk
  cases hd
  rw [h key] at hk
  cases hk

theorem Remembers.mono [Json.Replacement] {store : Option D} {past' : List Turn} (h : Remembers view store past)
    (hsub : ∀ t ∈ past, t ∈ past') : Remembers view store past' := by
  intro d hd key module hk
  obtain ⟨t, ht, hc⟩ := h d hd key module hk
  exact ⟨t, hsub t ht, hc⟩

variable [Database D] (h : Database.Laws view)
include h

/-- What is known is in the store. -/
theorem modules_of_known {d : D} {key module : Text} (hk : known (some d) key = some module) :
    (view d).modules key = some module := by
  unfold known at hk
  cases hg : Cache.get d key with
  | error f => simp only [hg] at hk; cases hk
  | ok module? =>
    simp only [hg] at hk
    subst hk
    exact (Option.filter_eq_some_iff.1 (Cache.get_ok h hg).symm).1

/-- A module that is in the store afterwards was in it before, or it is the one to be kept. -/
theorem modules_keep {d d' : D} {new? : Option Entry} (hd : keep (some d) new? = some d') {key module : Text}
    (hm : (view d').modules key = some module) :
    (view d).modules key = some module ∨ new? = some ⟨key, module⟩ := by
  cases new? with
  | none => cases hd; exact .inl hm
  | some e =>
    cases hd
    rcases hput : Cache.put d e.key e.module with ⟨r, d'⟩
    rw [hput] at hm
    cases r with
    | error f =>
      rw [Cache.put_error h hput] at hm
      exact .inl hm
    | ok =>
      rw [Cache.put_ok h hput] at hm
      change (if key = e.key then some e.module else (view d).modules key) = some module at hm
      split at hm
      · rename_i hkey
        cases hm
        subst hkey
        exact .inr rfl
      · exact .inl hm

end Stores

section Histories

variable [Engine.Runtime] [Json.Replacement] {D : Type} [Database D]

/-- The response to a request when no other is served. -/
def Turn.alone (D : Type) [Database D] (t : Turn) : Response :=
  (handle t.target (none : Option D) .fresh t.request).1

theorem Turn.alone_eq (t : Turn) :
    t.alone D = t.request.respond (outcome t.target (fun _ => none) t.request) :=
  (reply_eq t.target (fun _ => none) .fresh t.request).1

namespace Shared

def buffer (s : Shared D) (t : Turn) : Buffer := s.pool[t.pick]?.getD .fresh

def reply (s : Shared D) (t : Turn) : Reply :=
  Service.reply t.target (if t.reads then known s.store else fun _ => none) (s.buffer t) t.request

/-- What the requests after this one find. -/
def next (s : Shared D) (t : Turn) : Shared D where
  store := if t.writes then keep s.store (s.reply t).fresh? else s.store
  pool := (s.reply t).buffer :: s.pool.eraseIdx t.pick

/-- What is found after a history of requests. -/
def after (s : Shared D) (turns : List Turn) : Shared D := turns.foldl next s

/-- The responses to a history of requests. -/
def responses (s : Shared D) : List Turn → List Response
  | [] => []
  | t :: turns => (s.reply t).response :: (s.next t).responses turns

/-- Where the store can be read and written, a request is served with it. -/
theorem handle_eq (s : Shared D) {t : Turn} (hr : t.reads = true) (hw : t.writes = true) :
    handle t.target s.store (s.buffer t) t.request =
      ((s.reply t).response, (s.next t).store, (s.reply t).buffer) := by
  simp only [next, reply, hr, hw, if_true]
  rfl

end Shared

section Laws

variable {view : D → View} {s : Shared D} {past : List Turn} (h : Database.Laws view)
include h

/-- Serving a request keeps the invariant of the store. -/
theorem Remembers.next (hs : Remembers view s.store past) (t : Turn) :
    Remembers view (s.next t).store (past ++ [t]) := by
  have hold : Remembers view s.store (past ++ [t]) := hs.mono fun t ht => List.mem_append_left _ ht
  unfold Shared.next
  split
  case isFalse => exact hold
  intro d' hd key module hm
  rcases hstore : s.store with _ | d
  · rw [hstore] at hd
    cases hd
  rw [hstore] at hd hold
  obtain hm | hfresh := modules_keep h hd hm
  · exact hold d rfl key module hm
  · rw [Shared.reply, (reply_eq _ _ _ _).2] at hfresh
    obtain ⟨c, hasks, houtcome⟩ | ⟨r, hnone, houtcome⟩ := outcome_cases t.target t.request
    · rw [houtcome] at hfresh
      obtain ⟨hkey, hresult⟩ := fresh?_answer hfresh
      exact ⟨t, by simp, c, hasks, hkey.symm, hresult⟩
    · rw [houtcome, hnone] at hfresh
      cases hfresh

theorem Remembers.after (hs : Remembers view s.store past) :
    ∀ turns : List Turn, Remembers view (s.after turns).store (past ++ turns) := by
  intro turns
  induction turns generalizing s past with
  | nil =>
    rw [List.append_nil]
    exact hs
  | cons t turns ih =>
    rw [List.append_cons]
    exact ih (hs.next h t)

/-- With a store that remembers only what is true, a request is answered as it is alone, unless its
key collides with one of the past. -/
theorem Remembers.respond {store : Option D} (hs : Remembers view store past) (t : Turn)
    (hc : NoCollision (past ++ [t])) :
    t.request.respond (outcome t.target (known store) t.request) = t.alone D := by
  rw [t.alone_eq]
  obtain ⟨c, hasks, houtcome⟩ | ⟨r, -, houtcome⟩ := outcome_cases t.target t.request
  · rw [houtcome, houtcome]
    refine answer_of_result t.request fun module hk => ?_
    rcases store with _ | d
    · cases hk
    obtain ⟨t', ht', c', hasks', hkey, hresult⟩ := hs d rfl _ _ (modules_of_known h hk)
    -- what is known under the key was asked for before; without a collision it is the same compilation
    have hmaterial := hc t' (by simp [ht']) t (by simp) c' c hasks' hasks hkey
    have hjob := Job.material_inj (Compilation.bounded_job hasks'.source)
      (Compilation.bounded_job hasks.source) hmaterial
    rw [← Compilation.eq_of_job hjob]
    exact hresult
  · rw [houtcome, houtcome]

theorem Remembers.response (hs : Remembers view s.store past) (t : Turn) (hc : NoCollision (past ++ [t])) :
    (s.reply t).response = t.alone D := by
  rw [Shared.reply, (reply_eq _ _ _ _).1]
  split
  · exact hs.respond h t hc
  · exact t.alone_eq.symm

theorem Remembers.responses (hs : Remembers view s.store past) :
    ∀ turns : List Turn, NoCollision (past ++ turns) → s.responses turns = turns.map (Turn.alone D) := by
  intro turns
  induction turns generalizing s past with
  | nil => intro _; rfl
  | cons t turns ih =>
    intro hc
    rw [List.append_cons] at hc
    have hfirst : NoCollision (past ++ [t]) := fun t₁ h₁ t₂ h₂ =>
      hc t₁ (List.mem_append_left _ h₁) t₂ (List.mem_append_left _ h₂)
    rw [Shared.responses, hs.response h t hfirst, ih (hs.next h t) hc]
    rfl

/-- The service has no memory. Whatever requests are served one after another, by targets of any kind,
with one store that is empty at first, kept by any database that keeps the laws, and any buffers of one pool,
and wherever the store cannot be read or written: every response is that to the request alone, served by its target
without a store and with a fresh buffer, as long as no keys collide. -/
theorem responses_eq_alone {d : D} (hempty : ∀ key, (view d).modules key = none) (pool : List Buffer)
    (turns : List Turn) (hc : NoCollision turns) :
    Shared.responses ⟨some d, pool⟩ turns = turns.map (Turn.alone D) := by
  have hs : Remembers view (Shared.mk (some d) pool).store [] := remembers_empty hempty
  exact hs.responses h turns hc

end Laws

end Histories

/-- A request to compile a small source by a strategy. -/
def compileRequest (strategy : Text) : Request :=
  ⟨"POST", "/compile", [(strategyHeader, strategy)], [⟨"if True then 1 else 2", true⟩]⟩

/-- The source is compiled by the strategy of the target, then by the other, which cannot be kept, and
then by the first again, which is now that of the request and found in the store. -/
def mixedTurns : List Turn :=
  [⟨⟨.select, []⟩, compileRequest [], true, true, 0⟩,
    ⟨⟨.select, []⟩, compileRequest "branch", true, false, 0⟩,
    ⟨⟨.branch, "main"⟩, compileRequest "SELECT", true, true, 0⟩]

/-- The compilation that the turns ask for, by a strategy. -/
def mixedCompilation (strategy : Strategy) : Compilation :=
  ⟨.wasm, ⟨strategy, "main"⟩, "if True then 1 else 2"⟩

theorem noCollision_mixedTurns : NoCollision mixedTurns := by
  have hheaders : ∀ t ∈ mixedTurns, ∃ strategy ∈ [Strategy.select, .branch],
      t.request.compilation t.target (arrived t.request.body) = .ok (mixedCompilation strategy) := by
    decide +kernel
  have hasked : ∀ t ∈ mixedTurns, ∀ c, t.Asks c →
      c = mixedCompilation .select ∨ c = mixedCompilation .branch := by
    intro t ht c hc
    obtain ⟨strategy, hs, h⟩ := hheaders t ht
    rw [hc.headers] at h
    cases h
    simp only [List.mem_cons, List.not_mem_nil, or_false] at hs
    rcases hs with rfl | rfl
    · exact .inl rfl
    · exact .inr rfl
  have hkeys : (mixedCompilation .select).job.key ≠ (mixedCompilation .branch).job.key := by
    unfold Job.key
    rw [Cache.digest_of_le (by decide), Cache.digest_of_le (by decide)]
    decide +kernel
  intro t ht t' ht' c c' hc hc' hkey
  rcases hasked t ht c hc with rfl | rfl <;> rcases hasked t' ht' c' hc' with rfl | rfl
  · rfl
  · exact absurd hkey hkeys
  · exact absurd hkey.symm hkeys
  · rfl

/-- The built-in engine and the built-in database serve the turns, and what cannot be shown is escaped. -/
theorem responses_mixedTurns : Database.Laws Store.view ∧ NoCollision mixedTurns ∧
    @Shared.responses Engine.builtin ⟨false⟩ Store _ ⟨some .empty, []⟩ mixedTurns =
      mixedTurns.map (@Turn.alone Engine.builtin ⟨false⟩ Store _) :=
  ⟨Store.laws, noCollision_mixedTurns,
    @responses_eq_alone Engine.builtin ⟨false⟩ _ _ _ Store.laws _ (fun _ => rfl) [] mixedTurns noCollision_mixedTurns⟩

end LetIf.Service
