import BufferBounds.Proofs.Reports
import BufferBounds.Proofs.Sorting
import Mathlib.Data.List.DropRight

/-!
# Reporters over many calls

A reporter may be asked for its findings at any time and take further accesses afterwards. What it
holds then is said by the calls made so far (`Reporter.Reflects`): the findings of the accesses taken
since it last handed any out, and the counts of all of them. Every call keeps this up, so every list
that is handed out is the sorted one of exactly those findings.

Two reporters that differ in whether accesses in bounds are reported go in step: what the one holds
is what the other holds without the accesses in bounds, and sorting does not disturb this.
-/

namespace BufferBounds

theorem Tally.foldl_count_zero (verdicts : List Verdict) :
    verdicts.foldl count zero =
      { inBounds := verdicts.count .inBounds
        outOfBounds := verdicts.count .outOfBounds
        indeterminate := verdicts.count .indeterminate } := by
  induction verdicts using List.reverseRecOn with
  | nil => rfl
  | append_singleton verdicts verdict ih =>
    rw [List.foldl_append, ih]
    cases verdict <;> simp [count, List.count_append]

/-- The finding tells of this access and this verdict. -/
structure Finding.Tells (f : Finding) (access : Access) (verdict : Verdict) : Prop where
  /-- it has the verdict -/
  verdict_eq : f.verdict = verdict
  /-- it has the place of the access in the source text -/
  span_eq : f.span = access.span
  /-- it has the function of the access -/
  function_eq : f.function = access.function
  /-- it has the variable that is indexed -/
  base_eq : f.base = access.base
  /-- it has the index -/
  index_eq : f.index = access.index
  /-- it has the size of the buffer, which is unknown if the base is no tracked buffer -/
  size_eq : match access.pointer with
    | some (.buffer _ size) => f.size = size
    | _ => f.size = .unknown

theorem Finding.tells_ofAccess (access : Access) (verdict : Verdict) :
    (ofAccess access verdict).Tells access verdict := by
  refine ⟨rfl, rfl, rfl, rfl, rfl, ?_⟩
  split
  · rename_i hpointer
    rw [ofAccess, Access.size?, hpointer]
    rfl
  · rename_i hpointer
    have hsize : access.size? = none := by
      rw [Access.size?]
      cases hp : access.pointer with
      | none => rfl
      | some p =>
        cases p with
        | buffer sites size => exact absurd hp (hpointer sites size)
        | untracked => rfl
    rw [ofAccess, hsize]
    rfl

namespace Reporter

/-! ## Calls -/

/-- A call to a reporter. -/
inductive Call where
  /-- takes an access with its verdict -/
  | accept (access : Access) (verdict : Verdict)
  /-- asks for the findings since the last time -/
  | finish
  deriving DecidableEq

/-- The access that a call gives to the reporter, with its verdict. -/
def Call.accepted? : Call → Option (Access × Verdict)
  | .accept access verdict => some (access, verdict)
  | .finish => none

/-- What is handed out at a call, if anything is, and the reporter after it. -/
def call (r : Reporter) : Call → Option (List Finding) × Reporter
  | .accept access verdict => (none, r.accept access verdict)
  | .finish => (some r.finish.1, r.finish.2)

/-- The reporter after these calls. -/
def afterCalls (r : Reporter) (calls : List Call) : Reporter :=
  calls.foldl (fun r c => (r.call c).2) r

/-- What is handed out at each of these calls. -/
def answers (r : Reporter) : List Call → List (Option (List Finding))
  | [] => []
  | c :: calls => (r.call c).1 :: (r.call c).2.answers calls

/-- The accesses given in these calls, in their order. -/
def accepted (calls : List Call) : List (Access × Verdict) := calls.filterMap Call.accepted?

/-- The accesses given in these calls since findings were last asked for. -/
def sinceFinish (calls : List Call) : List (Access × Verdict) :=
  accepted (calls.rtakeWhile (· ≠ .finish))

/-- Is an access with this verdict reported? -/
def isReported (reportInBounds : Bool) (verdict : Verdict) : Bool :=
  verdict = .outOfBounds || reportInBounds && verdict = .inBounds

variable {r r' : Reporter} {c : Call} {calls calls' : List Call} {reportInBounds : Bool}

theorem length_answers (r : Reporter) (calls : List Call) :
    (r.answers calls).length = calls.length := by
  induction calls generalizing r with
  | nil => rfl
  | cons c calls ih => rw [answers, List.length_cons, ih, List.length_cons]

theorem answers_append (r : Reporter) (calls calls' : List Call) :
    r.answers (calls ++ calls') = r.answers calls ++ (r.afterCalls calls).answers calls' := by
  induction calls generalizing r with
  | nil => rfl
  | cons c calls ih =>
    rw [List.cons_append, answers, ih, answers, List.cons_append]
    rfl

theorem afterCalls_concat (r : Reporter) (calls : List Call) (c : Call) :
    r.afterCalls (calls ++ [c]) = ((r.afterCalls calls).call c).2 := by
  rw [afterCalls, List.foldl_append]
  rfl

theorem accepted_concat (calls : List Call) (c : Call) :
    accepted (calls ++ [c]) = accepted calls ++ c.accepted?.toList := by
  rw [accepted, List.filterMap_append, accepted]
  cases c <;> rfl

theorem sinceFinish_concat_accept (calls : List Call) (access : Access) (verdict : Verdict) :
    sinceFinish (calls ++ [.accept access verdict]) = sinceFinish calls ++ [(access, verdict)] := by
  rw [sinceFinish, List.rtakeWhile_concat_pos _ _ _ (by simp), accepted_concat]
  rfl

theorem sinceFinish_concat_finish (calls : List Call) :
    sinceFinish (calls ++ [.finish]) = [] := by
  rw [sinceFinish, List.rtakeWhile_concat_neg _ _ _ (by simp)]
  rfl

/-! ## What a reporter holds -/

/-- The reporter is as these calls have left it. -/
structure Reflects (reportInBounds : Bool) (calls : List Call) (r : Reporter) : Prop where
  /-- it reports what it was asked to report -/
  reportInBounds_eq : r.reportInBounds = reportInBounds
  /-- it holds the findings of the accesses since findings were last asked for -/
  pending_eq : r.pending =
    ((sinceFinish calls).filter (isReported reportInBounds ·.2)).map fun p => .ofAccess p.1 p.2
  /-- it has counted all accesses -/
  tally_eq : r.tally = ((accepted calls).map (·.2)).foldl Tally.count .zero

theorem kept?_eq (reportInBounds : Bool) (access : Access) (verdict : Verdict) :
    (kept? reportInBounds access verdict).toList =
      if isReported reportInBounds verdict then [.ofAccess access verdict] else [] := by
  cases verdict <;> cases reportInBounds <;> rfl

namespace Reflects

theorem start (reportInBounds : Bool) : Reflects reportInBounds [] (fresh reportInBounds) :=
  ⟨rfl, rfl, rfl⟩

/-- Every call keeps up what the reporter holds. -/
theorem call (h : Reflects reportInBounds calls r) (c : Call) :
    Reflects reportInBounds (calls ++ [c]) (r.call c).2 := by
  have htally : (accepted (calls ++ [c])).map (·.2) =
      (accepted calls).map (·.2) ++ c.accepted?.toList.map (·.2) := by
    rw [accepted_concat, List.map_append]
  cases c with
  | accept access verdict =>
    refine ⟨h.reportInBounds_eq, ?_, ?_⟩
    · rw [sinceFinish_concat_accept, List.filter_append, List.map_append, ← h.pending_eq]
      refine (pending_accept r access verdict).trans ?_
      rw [h.reportInBounds_eq, kept?_eq, List.filter_singleton]
      cases isReported reportInBounds verdict <;> rfl
    · rw [htally, List.foldl_append, ← h.tally_eq]
      rfl
  | finish =>
    refine ⟨h.reportInBounds_eq, ?_, ?_⟩
    · rw [sinceFinish_concat_finish]
      rfl
    · rw [htally, List.foldl_append, ← h.tally_eq]
      rfl

theorem afterCalls (reportInBounds : Bool) (calls : List Call) :
    Reflects reportInBounds calls ((fresh reportInBounds).afterCalls calls) := by
  induction calls using List.reverseRecOn with
  | nil => exact start reportInBounds
  | append_singleton calls c ih =>
    rw [afterCalls_concat]
    exact ih.call c

end Reflects

/-! ## Two reporters in step -/

/-- Leaves out the findings in bounds. -/
def withoutInBounds (findings : List Finding) : List Finding :=
  findings.filter (·.verdict ≠ .inBounds)

/-- The one reporter does not report accesses in bounds, the other does, and apart from these they
hold the same. -/
structure InStep (r r' : Reporter) : Prop where
  /-- the one does not report them -/
  silent : r.reportInBounds = false
  /-- the other does -/
  full : r'.reportInBounds = true
  /-- the one holds what the other holds without them -/
  pending_eq : r.pending = withoutInBounds r'.pending

/-- What the two hand out at a call differs in the same way, and they stay in step. -/
theorem InStep.call (h : InStep r r') (c : Call) :
    (r.call c).1 = (r'.call c).1.map withoutInBounds ∧ InStep (r.call c).2 (r'.call c).2 := by
  cases c with
  | accept access verdict =>
    refine ⟨rfl, h.silent, h.full, ?_⟩
    have hkept : (kept? false access verdict).toList =
        withoutInBounds (kept? true access verdict).toList := by
      cases verdict <;> rfl
    refine (pending_accept r access verdict).trans ?_
    refine Eq.trans ?_ (congrArg withoutInBounds (pending_accept r' access verdict)).symm
    rw [h.silent, h.full, h.pending_eq, hkept, withoutInBounds, withoutInBounds, withoutInBounds,
      List.filter_append]
  | finish =>
    refine ⟨congrArg some ?_, h.silent, h.full, rfl⟩
    change Finding.sort r.pending = withoutInBounds (Finding.sort r'.pending)
    rw [h.pending_eq, withoutInBounds, withoutInBounds, Finding.filter_sort]

theorem InStep.answers (h : InStep r r') (calls : List Call) :
    r.answers calls = (r'.answers calls).map (·.map withoutInBounds) := by
  induction calls generalizing r r' with
  | nil => rfl
  | cons c calls ih =>
    obtain ⟨hanswer, hstep⟩ := h.call c
    rw [Reporter.answers, Reporter.answers, List.map_cons, hanswer, ih hstep]

/-! ## Whole sequences of calls -/

/-- What is handed out when findings are asked for is what the reporter holds then, sorted. -/
theorem getElem?_answers (r : Reporter) (before after : List Call) :
    (r.answers (before ++ .finish :: after))[before.length]? =
      some (some (Finding.sort (r.afterCalls before).pending)) := by
  rw [answers_append, ← length_answers r before, List.getElem?_append_right (Nat.le_refl _),
    Nat.sub_self]
  rfl

/-- **A reporter loses nothing and repeats nothing**, whatever calls are made to it. Whenever findings
are asked for they are those of the accesses taken since the last time that are out of bounds, or on
request in bounds: one for each, sorted stably by where they start. The counts are those of all
accesses ever taken, also after findings were handed out. And without the request exactly the
findings in bounds are missing in each list. -/
theorem reports_once (reportInBounds : Bool) :
    (∀ before after, ∃ findings sorted,
      ((fresh reportInBounds).answers (before ++ .finish :: after))[before.length]? =
        some (some sorted) ∧
      List.Forall₂ (fun p f => Finding.Tells f p.1 p.2)
        ((sinceFinish before).filter (isReported reportInBounds ·.2)) findings ∧
      Finding.SortedStably findings sorted) ∧
    ∀ calls,
      ((fresh reportInBounds).afterCalls calls).tally =
        { inBounds := ((accepted calls).map (·.2)).count .inBounds
          outOfBounds := ((accepted calls).map (·.2)).count .outOfBounds
          indeterminate := ((accepted calls).map (·.2)).count .indeterminate } ∧
      ((fresh reportInBounds).afterCalls calls).tally.total = (accepted calls).length ∧
      ((fresh reportInBounds).afterCalls (calls ++ [.finish])).tally =
        ((fresh reportInBounds).afterCalls calls).tally ∧
      (fresh false).answers calls =
        ((fresh true).answers calls).map (·.map (List.filter (·.verdict ≠ .inBounds))) := by
  constructor
  · intro before after
    have hpending := (Reflects.afterCalls reportInBounds before).pending_eq
    refine ⟨_, _, getElem?_answers _ before after, ?_,
      Finding.sortedStably_sort (.refl _) fun _ _ => rfl⟩
    rw [hpending, List.forall₂_map_right_iff]
    exact List.forall₂_same.mpr fun p _ => Finding.tells_ofAccess p.1 p.2
  · intro calls
    have htally := (Reflects.afterCalls reportInBounds calls).tally_eq
    have hstep : InStep (fresh false) (fresh true) := ⟨rfl, rfl, rfl⟩
    refine ⟨?_, ?_, ?_, hstep.answers calls⟩
    · rw [htally, Tally.foldl_count_zero]
    · rw [htally, Tally.total_foldl_count, List.length_map]
      exact Nat.zero_add _
    · rw [afterCalls_concat]
      rfl

end Reporter

end BufferBounds
