import Lox.Proofs.Machine.Coupling
import Lox.Proofs.Machine.Evolution

/-!
# Frames and active calls

A call is active while the function that is called is being applied.  Which calls are active can be
read off the jobs that are being done, and at every moment of an execution the frames of the machine
are these calls.  A fault that leaves a call takes the frames with it, unless it has done so before;
so in the end it tells which calls were active where it was raised.

An execution may begin while calls are active.  Therefore only what it adds is compared: to the jobs
that were being done already, and to the frames that were there.
-/

namespace Lox

open Stateful

/-! ## Active calls -/

def Job.frame? (job : Job) : Option Frame :=
  match job.task with
  | .call f paren _ => f.callable?.map fun callee ↦ ⟨callee.1, paren.line⟩
  | .expr _ | .apply .. | .stmt _ => none

/-- The frame of the call in which a function is about to be applied. -/
def pending (path : List Job) : List Frame :=
  (path.head?.bind Job.frame?).toList

/-- The active calls, the innermost first: those in which a function is being applied. -/
def active : List Job → List Frame
  | [] => []
  | ⟨.apply .., _, _⟩ :: path => pending path ++ active path
  | _ :: path => active path

/-- The fault, found while these calls were active; the innermost comes first in its backtrace. -/
def Diagnostic.during (d : Diagnostic) (calls : List Frame) : Diagnostic :=
  { d with backtrace := if calls = [] then none else some calls }

namespace Framing

/-- Where executions begin that are said to be applied, a frame is already there for the call whose
function is about to be applied. -/
def activeAt (applied : Bool) (path : List Job) : List Frame :=
  if applied then pending path ++ active path else active path

/-- The calls that have become active since the record was begun are on top of the frames. -/
def Accounts (applied : Bool) (record : Record) (calls : List Frame) (moment : Moment) : Prop :=
  active moment.path = calls ++ activeAt applied record.path ∧
    moment.machine.frames.toList = record.machine.frames.toList ++ calls.reverse

/-- From the one record to the other, the frames were the active calls, no more than may be. -/
structure Accounted (settings : Settings) (applied : Bool) (record after : Record) : Prop where
  path : after.path = record.path
  frames : after.machine.frames = record.machine.frames
  moments : ∃ new, after.moments = new ++ record.moments ∧ ∀ moment ∈ new,
    (∃ calls, Accounts applied record calls moment) ∧ moment.machine.frames.size ≤ settings.calls

/-- A fault that leaves an execution was raised at some moment.  If calls have become active until
then, it tells which calls were active. -/
def Raised (applied : Bool) (record after : Record) : Halt → Prop
  | .failed d => ∃ moment fault calls, after.faults = (moment, fault) :: record.faults ∧
      moment ∈ after.moments ∧ Accounts applied record calls moment ∧ fault.backtrace = none ∧
      d = if calls = [] then fault
        else { fault with backtrace := some moment.machine.frames.toList.reverse }
  | .returned _ | .faulted _ | .exhausted | .unfinished => after.faults = record.faults

/-- The frames are the active calls.  The mode tells whether a function is about to be applied. -/
def discipline (settings : Settings) : Discipline Record where
  settings
  Mode := Bool
  inner := false
  applied := true
  bound := false
  body := false
  block := id
  valid record := record.machine.frames.size ≤ settings.calls
  keeps applied record after :=
    Accounted settings applied record after ∧ after.faults = record.faults
  stops applied record halt after :=
    Accounted settings applied record after ∧ Raised applied record after halt
  value _ _ := True
  expr _ := True
  stmt applied _ := applied = false
  fits _ _ := True
  calls f paren _ record := pending record.path =
    (f.callable?.map fun callee ↦ (⟨callee.1, paren.line⟩ : Frame)).toList
  roomy record := record.machine.frames.size < settings.calls

variable {settings : Settings} {applied : Bool} {record after later : Record}

/-! ## Sequences -/

theorem Accounted.refl (settings : Settings) (applied : Bool) (record : Record) :
    Accounted settings applied record record :=
  ⟨rfl, rfl, [], rfl, List.forall_mem_nil _⟩

/-- What is on top of the frames does not depend on what happened before, if the same jobs and calls
are there. -/
theorem Accounts.of_accounted {calls : List Frame} {moment : Moment}
    (h : Accounted settings applied record after) (hmoment : Accounts applied after calls moment) :
    Accounts applied record calls moment := by
  unfold Accounts at hmoment
  rwa [h.path, h.frames] at hmoment

/-- Frames that are accounted for step by step are accounted for as a whole. -/
theorem Accounted.trans (h : Accounted settings applied record after)
    (h' : Accounted settings applied after later) : Accounted settings applied record later := by
  obtain ⟨new, hnew, hmoments⟩ := h.moments
  obtain ⟨new', hnew', hmoments'⟩ := h'.moments
  refine ⟨h'.path.trans h.path, h'.frames.trans h.frames, new' ++ new, ?_, ?_⟩
  · rw [hnew', hnew, List.append_assoc]
  · refine List.forall_mem_append.mpr ⟨fun moment hmoment ↦ ?_, hmoments⟩
    obtain ⟨⟨calls, hcalls⟩, hsize⟩ := hmoments' moment hmoment
    exact ⟨⟨calls, hcalls.of_accounted h⟩, hsize⟩

/-- A fault raised later was raised since the beginning. -/
theorem Raised.trans {halt : Halt} (h : Accounted settings applied record after)
    (hfaults : after.faults = record.faults) (h' : Raised applied after later halt) :
    Raised applied record later halt := by
  cases halt with
  | failed d =>
    obtain ⟨moment, fault, calls, hadded, hmem, hcalls, hnone, hd⟩ := h'
    exact ⟨moment, fault, calls, hfaults ▸ hadded, hmem, hcalls.of_accounted h, hnone, hd⟩
  | returned | faulted | exhausted | unfinished => exact Eq.trans h' hfaults

/-! ## Contexts -/

/-- Another machine is noted, while the same jobs are being done and the same calls are active. -/
theorem Accounted.reach (h : Accounted settings false record after)
    (hsize : record.machine.frames.size ≤ settings.calls) {m : Machine}
    (hm : m.frames = after.machine.frames) : Accounted settings false record (after.reach m) := by
  obtain ⟨new, hnew, hmoments⟩ := h.moments
  have hframes : m.frames = record.machine.frames := hm.trans h.frames
  refine ⟨h.path, hframes, ⟨after.path, m⟩ :: new, ?_,
    List.forall_mem_cons.mpr ⟨⟨⟨[], ?_, ?_⟩, ?_⟩, hmoments⟩⟩
  · rw [List.cons_append, ← hnew]
    rfl
  · exact congrArg active h.path
  · rw [hframes, List.reverse_nil, List.append_nil]
  · rw [hframes]
    exact hsize

/-- A job is begun, in which the active calls are those that are counted already. -/
theorem Accounted.job {job : Job} (hactive : active (job :: record.path) = activeAt applied record.path)
    (hsize : record.machine.frames.size ≤ settings.calls)
    (h : Accounted settings false (record.begun job) after) :
    Accounted settings applied record after.done := by
  have hnoted := h.reach hsize rfl
  obtain ⟨new, hnew, hmoments⟩ := hnoted.moments
  refine ⟨congrArg List.tail h.path, h.frames,
    new ++ [⟨job :: record.path, record.machine⟩], ?_, ?_⟩
  · change (after.reach after.machine).moments = _
    rw [hnew, List.append_assoc]
    rfl
  · refine List.forall_mem_append.mpr ⟨fun moment hmoment ↦ ?_, List.forall_mem_singleton.mpr ?_⟩
    · obtain ⟨⟨calls, hcalls, hframes⟩, hsize'⟩ := hmoments moment hmoment
      exact ⟨⟨calls, hactive ▸ hcalls, hframes⟩, hsize'⟩
    · exact ⟨⟨[], hactive, (List.append_nil _).symm⟩, hsize⟩

/-- A fault stays raised while the machine changes. -/
theorem Raised.reach {halt : Halt} (h : Raised applied record after halt) (m : Machine) :
    Raised applied record (after.reach m) halt := by
  cases halt with
  | failed d =>
    obtain ⟨moment, fault, calls, hadded, hmem, hraised⟩ := h
    exact ⟨moment, fault, calls, hadded, List.mem_cons_of_mem _ hmem, hraised⟩
  | returned | faulted | exhausted | unfinished => exact h

/-- A fault raised in a job was raised in what the job is a part of. -/
theorem Raised.job {job : Job} (hactive : active (job :: record.path) = activeAt applied record.path)
    {halt : Halt} (h : Raised false (record.begun job) after halt) :
    Raised applied record after.done halt := by
  cases halt with
  | failed d =>
    obtain ⟨moment, fault, calls, hadded, hmem, ⟨hcalls, hframes⟩, hnone, hd⟩ := h
    exact ⟨moment, fault, calls, hadded, List.mem_cons_of_mem _ hmem, ⟨hactive ▸ hcalls, hframes⟩,
      hnone, hd⟩
  | returned | faulted | exhausted | unfinished => exact h

/-- Doing a job that is no call leaves the active calls as they are. -/
theorem job_surrounds {α : Type} {good : Record → α → Prop} {job : Job}
    (hgood : ∀ {record a}, good record a → good record.done a)
    (hactive : active (job :: record.path) = activeAt applied record.path)
    (hsize : record.machine.frames.size ≤ settings.calls) :
    (discipline settings).Surrounds false applied (.job job) record good where
  valid := hsize
  carries _ _ := trivial
  leave {r} h := by
    cases r with
    | ok a after => exact ⟨h.1, ⟨h.2.1.1.job hactive hsize, h.2.1.2⟩, hgood h.2.2⟩
    | error halt after => exact ⟨h.1.job hactive hsize, h.2.job hactive⟩

/-- Opening a scope has nothing to do with calls. -/
theorem scope_surrounds {α : Type} {good : α → Prop} (enclosing : Option ScopeId)
    (hsize : record.machine.frames.size ≤ settings.calls) :
    (discipline settings).Surrounds false false (.scope enclosing) record fun _ ↦ good := by
  have hentered : Accounted settings false record (Host.enter (.scope enclosing) record) := by
    refine Accounted.reach (.reach (.refl settings false record) hsize ?_) hsize ?_ <;> rfl
  refine ⟨hsize, fun _ _ ↦ trivial, fun {r} h ↦ ?_⟩
  cases r with
  | ok a after =>
    have hleft := (hentered.trans h.2.1.1).reach hsize (m := after.machine.left (.scope enclosing)
      record.machine.current) rfl
    exact ⟨h.1, ⟨hleft, h.2.1.2⟩, h.2.2⟩
  | error halt after =>
    have hleft := (hentered.trans h.1).reach hsize (m := after.machine.left (.scope enclosing)
      record.machine.current) rfl
    exact ⟨hleft, (h.2.trans hentered rfl).reach _⟩

section Call

variable {frame : Frame} (hpending : pending record.path = [frame])
include hpending

/-- Inside a call, its frame is the one below those of the calls made since. -/
theorem Accounts.call {calls : List Frame} {moment : Moment}
    (h : Accounts true (Host.enter (.call frame) record) calls moment) :
    Accounts false record (calls ++ [frame]) moment := by
  obtain ⟨hcalls, hframes⟩ := h
  constructor
  · calc active moment.path
        = calls ++ (pending record.path ++ active record.path) := hcalls
      _ = calls ++ [frame] ++ active record.path := by rw [hpending, List.append_assoc]
  · calc moment.machine.frames.toList
        = (record.machine.frames.push frame).toList ++ calls.reverse := hframes
      _ = record.machine.frames.toList ++ (calls ++ [frame]).reverse := by
        rw [Array.toList_push, List.reverse_append, List.append_assoc]
        rfl

/-- When the call is over, its frame is gone, and the frames of what surrounds it are accounted for.
-/
theorem Accounted.call (h : Accounted settings true (Host.enter (.call frame) record) after)
    (before : ScopeId) : Accounted settings false record
      { after with machine := after.machine.left (.call frame) before } := by
  obtain ⟨new, hnew, hmoments⟩ := h.moments
  refine ⟨h.path, Machine.left_frames h.frames before, new, hnew, fun moment hmoment ↦ ?_⟩
  obtain ⟨⟨calls, hcalls⟩, hsize⟩ := hmoments moment hmoment
  exact ⟨⟨_, hcalls.call hpending⟩, hsize⟩

/-- A fault that leaves a call tells which calls were active where it was raised, from then on. -/
theorem Raised.call {halt : Halt} (hframes : after.machine.frames = record.machine.frames.push frame)
    (h : Raised true (Host.enter (.call frame) record) after halt) (m : Machine) :
    Raised false record { after with machine := m } (Eval.located after.machine.frames halt) := by
  cases halt with
  | failed d =>
    obtain ⟨moment, fault, calls, hadded, hmem, hcalls, hnone, hd⟩ := h
    refine ⟨moment, fault, calls ++ [frame], hadded, hmem, hcalls.call hpending, hnone, ?_⟩
    rw [if_neg (List.append_ne_nil_of_right_ne_nil calls (List.cons_ne_nil frame []))]
    split at hd
    · next hnil =>
      have hall : moment.machine.frames.toList = after.machine.frames.toList := by
        rw [hcalls.2, hnil, List.reverse_nil, List.append_nil, hframes]
        rfl
      rw [hd, hnone, hall]
      rfl
    · rw [hd]
      rfl
  | returned | faulted | exhausted | unfinished => exact h

/-- If there is room for one more call, the frame that is pushed is that of the call that becomes
active. -/
theorem call_surrounds {α : Type} {good : α → Prop}
    (hroom : record.machine.frames.size < settings.calls) :
    (discipline settings).Surrounds true false (.call frame) record fun _ ↦ good where
  valid := by
    change (record.machine.frames.push frame).size ≤ settings.calls
    rw [Array.size_push]
    exact hroom
  carries _ _ := trivial
  leave {r} h := by
    cases r with
    | ok a after =>
      have hleft := h.2.1.1.call hpending record.machine.current
      change (discipline settings).Ends false record _
        (Course.resume after (Host.leave (.call frame) record.machine.current (.ok a after.machine)))
      rw [Machine.leave_ok h.2.1.1.frames]
      refine ⟨?_, ⟨hleft, h.2.1.2⟩, h.2.2⟩
      exact Nat.le_trans (Nat.le_of_eq (congrArg Array.size hleft.frames)) (Nat.le_of_lt hroom)
    | error halt after =>
      have hleft := h.1.call hpending record.machine.current
      change (discipline settings).Ends false record _
        (Course.resume after
          (Host.leave (.call frame) record.machine.current (.error halt after.machine)))
      rw [Machine.leave_error h.1.frames]
      exact ⟨hleft, h.2.call hpending h.1.frames _⟩

end Call

/-! ## Operations -/

section Operations

variable {α : Type} {p : Eval α} (hsize : record.machine.frames.size ≤ settings.calls)
include hsize

/-- An operation that leaves the frames alone is accounted for. -/
theorem once_ok {good : Record → α → Prop} {a : α} {m : Machine}
    (hp : p record.machine = .ok a m) (hm : m.frames = record.machine.frames)
    (hgood : good (record.reach m) a) :
    (discipline settings).At false record good (Host.perform p) := by
  have hdone : Course.once p record = .ok a (record.reach m) := by
    rw [Course.once, hp]
  refine .of_ok hdone ?_ ⟨(Accounted.refl settings false record).reach hsize hm, rfl⟩ hgood
  exact Nat.le_trans (Nat.le_of_eq (congrArg Array.size hm)) hsize

/-- A fault that is found at once is raised there. -/
theorem once_failed {good : Record → α → Prop} {d : Diagnostic} (hd : d.backtrace = none)
    (hp : p record.machine = .error (.failed d) record.machine) :
    (discipline settings).At false record good (Host.perform p) := by
  have hdone : Course.once p record =
      .error (.failed d) ((record.reach record.machine).blame (.failed d)) := by
    rw [Course.once, hp]
  obtain ⟨hpath, hframes, hmoments⟩ := (Accounted.refl settings false record).reach hsize rfl
  refine .of_error hdone ⟨⟨hpath, hframes, hmoments⟩, record.toMoment, d, [], rfl,
    List.mem_cons_self, ⟨rfl, (List.append_nil _).symm⟩, hd, rfl⟩

theorem once_faulted {good : Record → α → Prop} {fault : Fault}
    (hp : p record.machine = .error (.faulted fault) record.machine) :
    (discipline settings).At false record good (Host.perform p) := by
  have hdone : Course.once p record = .error (.faulted fault) (record.reach record.machine) := by
    rw [Course.once, hp]
    rfl
  exact .of_error hdone ⟨(Accounted.refl settings false record).reach hsize rfl, rfl⟩

end Operations

theorem stays (settings : Settings) (applied : Bool) (record : Record) {halt : Halt}
    (h : ∀ d, halt ≠ .failed d) : (discipline settings).stops applied record halt record := by
  refine ⟨.refl settings applied record, ?_⟩
  cases halt with
  | failed d => exact absurd rfl (h d)
  | returned | faulted | exhausted | unfinished => rfl

theorem expr_step (settings : Settings) (e : Expr) : (discipline settings).ExprStep e := by
  cases e with
  | literal => exact fun _ _ ↦ trivial
  | var name =>
    intro record hsize
    rcases Eval.lookup_cases name record.machine with ⟨owner, v, -, heq⟩ | ⟨-, heq⟩
    · exact once_ok hsize heq rfl trivial
    · exact once_failed hsize rfl heq
  | assign name value =>
    refine ⟨fun record v hsize _ ↦ ?_, trivial⟩
    rcases Eval.assign_cases name v record.machine with ⟨owner, old, -, heq⟩ | ⟨-, heq⟩
    · exact once_ok hsize heq rfl trivial
    · exact once_failed hsize rfl heq
  | unary operator operand =>
    refine ⟨fun record x hsize _ ↦ ?_, trivial⟩
    rcases Eval.unary_cases (rfl : operator.kind = operator.kind) (rfl : x.atom? = x.atom?) with
      ⟨a, heq, -⟩ | ⟨cause, heq, -⟩ | ⟨-, heq, -⟩
    · exact once_ok hsize (congrFun heq _) rfl trivial
    · exact once_failed hsize rfl (congrFun heq _)
    · exact once_faulted hsize (congrFun heq _)
  | binary operator left right =>
    refine ⟨fun record x y hsize _ _ ↦ ?_, trivial, trivial⟩
    rcases Eval.binary_cases (rfl : operator.kind = operator.kind) (rfl : x.atom? = x.atom?)
      (rfl : y.atom? = y.atom?) rfl with ⟨a, heq, -⟩ | ⟨cause, heq, -⟩ | ⟨-, heq, -⟩
    · exact once_ok hsize (congrFun heq _) rfl trivial
    · exact once_failed hsize rfl (congrFun heq _)
    · exact once_faulted hsize (congrFun heq _)
  | logical => exact ⟨trivial, trivial⟩
  | call => exact ⟨trivial, fun _ _ ↦ trivial⟩
  | grouping => trivial
  | void => exact fun record _ ↦ stays settings false record nofun

theorem stmt_step (settings : Settings) (s : Stmt) : (discipline settings).StmtStep false s := by
  have hprint (text : Value → String) :
      (discipline settings).HoldsOn false Discipline.done fun v ↦ Eval.print (text v) :=
    fun _ _ hsize _ ↦ once_ok hsize rfl rfl trivial
  have hdefine (name : String) :
      (discipline settings).HoldsOn false Discipline.done (Eval.define name) :=
    fun _ _ hsize _ ↦ once_ok hsize rfl rfl trivial
  cases s with
  | block => exact fun _ _ ↦ rfl
  | empty => trivial
  | expression => exact ⟨hprint Value.source, trivial⟩
  | function name params body => exact ⟨fun _ hsize ↦ once_ok hsize rfl rfl trivial, hdefine _⟩
  | branch => exact ⟨trivial, rfl, fun _ _ ↦ rfl⟩
  | print => exact ⟨hprint Value.display, trivial⟩
  | ret => exact ⟨fun record _ _ _ ↦ stays settings false record nofun, fun _ _ ↦ trivial⟩
  | declare name => exact ⟨hdefine name.lexeme, fun _ _ ↦ trivial⟩
  | loop => exact ⟨trivial, rfl⟩
  | void => exact fun record _ ↦ stays settings false record nofun

/-! ## Executions -/

/-- Nothing that executions are made of pushes or pops a frame, except for calls. -/
theorem upheld (settings : Settings) : (discipline settings).Upheld where
  refl _ := ⟨.refl settings _ _, rfl⟩
  trans h h' := ⟨h.1.trans h'.1, Eq.trans h'.2 h.2⟩
  stops_trans h h' := ⟨h.1.trans h'.1, h'.2.trans h.1 h.2⟩
  keeps_lift := by
    rintro _ stmt record after rfl h
    exact h
  stops_lift := by
    rintro _ stmt record halt after rfl h
    exact h
  carries _ _ := trivial
  calls_keeps h hkeeps := (congrArg pending hkeeps.1.path).trans h
  roomy_keeps h hkeeps := Nat.lt_of_le_of_lt (Nat.le_of_eq (congrArg Array.size hkeeps.1.frames)) h
  unfinished _ := stays settings _ _ nofun
  exhausted _ := stays settings _ _ nofun
  closure _ _ _ := rfl
  expr_step _ := expr_step settings _
  stmt_step := by
    rintro _ s rfl
    exact stmt_step settings s
  during_expr _ hsize := job_surrounds (fun h ↦ h) rfl hsize
  during_stmt := by
    rintro _ stmt n k record rfl hsize
    exact job_surrounds (fun h ↦ h) rfl hsize
  during_call hsize _ _ := ⟨job_surrounds (fun h ↦ h) rfl hsize, rfl⟩
  during_apply hsize _ _ := job_surrounds (fun h ↦ h) rfl hsize
  inFrame {f name arity paren vs record} _ hroom hcalls hcallable := by
    have hpending : pending record.path = [⟨name, paren.line⟩] := by
      refine Eq.trans hcalls ?_
      rw [hcallable]
      rfl
    exact call_surrounds hpending hroom
  inBody hsize _ := scope_surrounds _ hsize
  inBlock := by
    rintro _ stmt record rfl hsize
    exact scope_surrounds none hsize
  notCallable _ hsize := once_failed hsize rfl rfl
  checkArity {record f name arity vs paren} hsize _ _ := by
    by_cases harity : vs.length = arity
    · exact once_ok hsize (congrFun (if_pos harity) _) rfl trivial
    · exact once_failed hsize rfl (congrFun (if_neg harity) _)
  checkRoom {paren} record hsize := by
    rcases Eval.checkRoom_cases settings paren record.machine with ⟨hroom, heq⟩ | ⟨-, heq⟩
    · exact once_ok hsize heq rfl hroom
    · exact once_failed hsize rfl heq
  traceCall {record vs} name hsize _ := by
    obtain ⟨line, hline⟩ := Eval.traceCall_eq name vs
    exact once_ok hsize (hline settings _) rfl trivial
  bindParam name record v hsize _ := once_ok hsize rfl rfl trivial
  keeps_body h := h
  stops_body h _ := h
  returned hsize h := ⟨Nat.le_trans (Nat.le_of_eq (congrArg Array.size h.1.frames)) hsize, h, trivial⟩
  nil _ := trivial
  readClock record hsize := once_ok hsize rfl rfl trivial
  surplusArguments _ _ := stays settings _ _ nofun
  notFunction _ _ := stays settings _ _ nofun
  traceStmt := by
    rintro _ s rfl record hsize
    obtain ⟨line, hline⟩ := Eval.traceStmt_eq s
    exact once_ok hsize (hline settings _) rfl trivial

/-! ## Programs -/

variable {m : Machine}

/-- Where nothing is being done and no call is active, what has been added is all there is. -/
theorem Accounts.of_start {calls : List Frame} {moment : Moment} (hm : m.frames = #[])
    (h : Accounts false (.start m) calls moment) :
    active moment.path = calls ∧ moment.machine.frames.toList = calls.reverse := by
  obtain ⟨hcalls, hframes⟩ := h
  refine ⟨hcalls.trans (List.append_nil calls), ?_⟩
  change _ = m.frames.toList ++ calls.reverse at hframes
  rw [hframes, hm]
  rfl

variable (settings : Settings) (steps : Nat) (echo : Bool) (statements : List Stmt)

/-- Frames are accounted for in every execution of a program that begins without calls in progress.
-/
theorem program_at (hm : m.frames = #[]) :
    (discipline settings).At false (.start m) Discipline.done
      (Course.program settings steps echo statements) := by
  have hholds : (discipline settings).Holds false Discipline.done
      (Course.program settings steps echo statements) :=
    (upheld settings).program_holds steps echo fun _ _ ↦ rfl
  refine hholds _ ?_
  change m.frames.size ≤ settings.calls
  rw [hm]
  exact Nat.zero_le _

/-- At every moment of an execution the frames are the active calls, the outermost first, and no
more than may be. -/
theorem frames_of_mem (hm : m.frames = #[]) {moment : Moment}
    (h : moment ∈ (final (Course.program settings steps echo statements (.start m))).moments) :
    moment.machine.frames.toList = (active moment.path).reverse ∧
      moment.machine.frames.size ≤ settings.calls := by
  have hend := program_at settings steps echo statements hm
  have haccounted : Accounted settings false (.start m)
      (final (Course.program settings steps echo statements (.start m))) := by
    cases hp : Course.program settings steps echo statements (.start m) with
    | ok a after => exact (hend.ok hp).2.1.1
    | error halt after => exact (hend.error hp).1
  obtain ⟨new, hnew, hmoments⟩ := haccounted.moments
  rw [hnew] at h
  rcases List.mem_append.mp h with hmem | hmem
  · obtain ⟨⟨calls, hcalls⟩, hsize⟩ := hmoments moment hmem
    obtain ⟨hactive, hframes⟩ := hcalls.of_start hm
    exact ⟨hactive ▸ hframes, hsize⟩
  · obtain rfl := List.mem_singleton.mp hmem
    rw [hm]
    exact ⟨rfl, Nat.zero_le _⟩

/-- A program that fails does so with the only fault that was raised, which tells the calls that were
active then. -/
theorem failed_during (hm : m.frames = #[]) {d : Diagnostic} {after : Record}
    (h : Course.program settings steps echo statements (.start m) = .error (.failed d) after) :
    ∃ moment fault, after.faults = [(moment, fault)] ∧ moment ∈ after.moments ∧
      fault.backtrace = none ∧ d = fault.during (active moment.path) := by
  obtain ⟨-, moment, fault, calls, hadded, hmem, hcalls, hnone, hd⟩ :=
    (program_at settings steps echo statements hm).error h
  refine ⟨moment, fault, hadded, hmem, hnone, ?_⟩
  obtain ⟨hactive, hframes⟩ := hcalls.of_start hm
  rw [hactive, hd, Diagnostic.during]
  split
  · rw [← hnone]
  · rw [hframes, List.reverse_reverse]

end Framing

/-! ## Single calls -/

namespace Eval

variable {settings : Settings} {f : Value} {name : String} {vs : List Value} {m : Machine}
  (hcallable : f.callable? = some (name, vs.length)) (steps levels : Nat) (paren : Token)
include hcallable

/-- Where as many calls are active as may be, nothing of a function that is called is executed. -/
theorem call_full (hfull : settings.calls ≤ m.frames.size) :
    call settings (steps + 1) levels f paren vs m =
      .error (.failed (.atToken .overflow paren Diagnostic.overflowMessage)) m := by
  have harity : checkArity vs.length vs paren m = .ok () m := congrFun (if_pos rfl) m
  have hroom : checkRoom settings paren m =
      .error (.failed (.atToken .overflow paren Diagnostic.overflowMessage)) m := if_pos hfull
  simp only [call, hcallable]
  exact (bind_of_ok harity _).trans (bind_of_error hroom _)

/-- A call that is made is the application of the function, with one more frame on the machine.  The
frame is taken away again however that ends. -/
theorem call_made (hroom : m.frames.size < settings.calls) :
    ∃ before : Machine, before.frames = m.frames.push ⟨name, paren.line⟩ ∧
      before.scopes = m.scopes ∧ before.current = m.current ∧
      (∀ v after, apply settings steps levels f vs before = .ok v after →
        call settings (steps + 1) levels f paren vs m = .ok v { after with frames := m.frames }) ∧
      ∀ halt after, apply settings steps levels f vs before = .error halt after →
        call settings (steps + 1) levels f paren vs m =
          .error (located before.frames halt) { after with frames := m.frames } := by
  obtain ⟨line, hline⟩ := traceCall_eq name vs
  let context : Context := .call ⟨name, paren.line⟩
  let reported := m.reported settings line
  have hcall : call settings (steps + 1) levels f paren vs m =
      Host.inside context (apply settings steps levels f vs) reported := by
    have harity : checkArity vs.length vs paren m = .ok () m := congrFun (if_pos rfl) m
    have hroom' : checkRoom settings paren m = .ok () m := if_neg (Nat.not_le_of_lt hroom)
    simp only [call, hcallable]
    exact (bind_of_ok harity _).trans ((bind_of_ok hroom' _).trans (bind_of_ok (hline settings m) _))
  have hmoves := Machine.restored_evolution.apply_moves settings steps levels f vs
    (Host.enter context reported)
  have hleft {after : Machine} (h : after.frames = (Host.enter context reported).frames) :
      after.left context (Host.current reported) = { after with frames := m.frames } :=
    congrArg (fun frames ↦ { after with frames }) (Machine.left_frames h reported.current)
  refine ⟨Host.enter context reported, rfl, rfl, rfl, fun v after happly ↦ ?_,
    fun halt after happly ↦ ?_⟩
  · have hframes : after.frames = (Host.enter context reported).frames := by
      rw [happly] at hmoves
      exact hmoves.frames
    rw [hcall, Host.inside, happly, Machine.leave_ok hframes, hleft hframes]
  · have hframes : after.frames = (Host.enter context reported).frames := by
      rw [happly] at hmoves
      exact hmoves.frames
    rw [hcall, Host.inside, happly, Machine.leave_error hframes, hleft hframes, ← hframes]
    rfl

end Eval

end Lox
