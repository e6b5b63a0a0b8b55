import LuaStubs.Proofs.Run
import Mathlib.Data.List.DropRight

/-! Runs of steps on backlogs. What a backlog holds and answers is told from the steps since the
last finish alone; claims and deferrals do not meet, so that they may be interleaved in any way. -/

namespace LuaStubs.Backlog

/-- The answers to some steps, one after the other, and the backlog behind them. -/
def run : List Step → Backlog → List Answer × Backlog
  | [], b => ([], b)
  | s :: rest, b =>
    let (answer, b) := b.step s
    let (answers, b) := run rest b
    (answer.toList ++ answers, b)

theorem run_cons (s : Step) (rest : List Step) (b : Backlog) :
    run (s :: rest) b = ((b.step s).1.toList ++ (run rest (b.step s).2).1, (run rest (b.step s).2).2) :=
  rfl

theorem run_append (steps rest : List Step) (b : Backlog) :
    run (steps ++ rest) b =
      ((run steps b).1 ++ (run rest (run steps b).2).1, (run rest (run steps b).2).2) := by
  induction steps generalizing b with
  | nil => rfl
  | cons s steps ih => simp only [List.cons_append, run_cons, ih, List.append_assoc]

def after (past : List Step) : Backlog :=
  (run past .empty).2

theorem after_concat (past : List Step) (s : Step) :
    after (past ++ [s]) = ((after past).step s).2 := by
  rw [after, run_append]
  rfl

namespace Step

def isClaim : Step → Bool
  | claim _ => true
  | _ => false

def isDeferral : Step → Bool
  | defer _ => true
  | _ => false

def isFinish : Step → Bool
  | finish => true
  | _ => false

def name? : Step → Option String
  | claim name => some name
  | _ => none

def block? : Step → Option (List Line)
  | defer block => some block
  | _ => none

end Step

/-! What is told from the history. -/

/-- The steps since the last finish. -/
def since (past : List Step) : List Step :=
  past.rtakeWhile (!·.isFinish)

def claimed (past : List Step) : List String :=
  (since past).filterMap Step.name?

def deferred (past : List Step) : List String :=
  (since past).filterMap fun s => s.block?.map Line.renderAll

/-- The answer to a step, by what has happened before. -/
def foretold (past : List Step) : Step → Option Answer
  | .claim name => some (.claimed (name ∉ claimed past))
  | .defer _ => none
  | .finish => some (.finished (String.join (deferred past)) (claimed past).eraseDups)

theorem since_concat {s : Step} (h : s.isFinish = false) (past : List Step) :
    since (past ++ [s]) = since past ++ [s] :=
  List.rtakeWhile_concat_pos _ _ _ (by simp [h])

theorem since_finish (past : List Step) : since (past ++ [.finish]) = [] :=
  List.rtakeWhile_concat_neg _ _ _ (by simp [Step.isFinish])

theorem claimed_claim (past : List Step) (name : String) :
    claimed (past ++ [.claim name]) = claimed past ++ [name] := by
  rw [claimed, since_concat rfl, List.filterMap_append]
  rfl

theorem claimed_defer (past : List Step) (block : List Line) :
    claimed (past ++ [.defer block]) = claimed past := by
  rw [claimed, since_concat rfl, List.filterMap_append]
  exact List.append_nil _

theorem claimed_finish (past : List Step) : claimed (past ++ [.finish]) = [] := by
  rw [claimed, since_finish]
  rfl

theorem deferred_claim (past : List Step) (name : String) :
    deferred (past ++ [.claim name]) = deferred past := by
  rw [deferred, since_concat rfl, List.filterMap_append]
  exact List.append_nil _

theorem deferred_defer (past : List Step) (block : List Line) :
    deferred (past ++ [.defer block]) = deferred past ++ [Line.renderAll block] := by
  rw [deferred, since_concat rfl, List.filterMap_append]
  rfl

theorem deferred_finish (past : List Step) : deferred (past ++ [.finish]) = [] := by
  rw [deferred, since_finish]
  rfl

theorem eraseDups_concat (names : List String) (name : String) :
    (names ++ [name]).eraseDups =
      if name ∈ names then names.eraseDups else names.eraseDups ++ [name] := by
  rw [List.eraseDups_append]
  split <;> simp_all [List.removeAll, List.eraseDups_cons]

theorem text_defer (b : Backlog) (block : List Line) :
    (b.defer block).text = b.text ++ Line.renderAll block := by
  simp only [text, defer, List.flatten_append, List.flatten_singleton, Line.renderAll_append]

theorem text_claim (b : Backlog) (name : String) : (b.claim name).2.text = b.text := by
  unfold claim
  split <;> rfl

theorem names_claim (b : Backlog) (name : String) :
    (b.claim name).2.names = if name ∈ b.names then b.names else b.names ++ [name] := by
  unfold claim
  split <;> rfl

/-- What a backlog holds is told from its history. -/
theorem after_eq (past : List Step) :
    (after past).names = (claimed past).eraseDups ∧ (after past).text = String.join (deferred past) := by
  induction past using List.reverseRecOn with
  | nil => exact ⟨rfl, rfl⟩
  | append_singleton past s ih =>
    obtain ⟨names, text⟩ := ih
    rw [after_concat]
    cases s with
    | claim name =>
      rw [claimed_claim, deferred_claim, eraseDups_concat]
      simp only [step, names_claim, text_claim, names, text, List.mem_eraseDups, and_self]
    | defer block =>
      rw [claimed_defer, deferred_defer]
      simp only [step, text_defer, text, String.join_append]
      exact ⟨names, by simp⟩
    | finish =>
      rw [claimed_finish, deferred_finish]
      exact ⟨rfl, rfl⟩

theorem step_foretold (past : List Step) (s : Step) : ((after past).step s).1 = foretold past s := by
  obtain ⟨names, text⟩ := after_eq past
  cases s with
  | claim name =>
    have mem : name ∈ (after past).names ↔ name ∈ claimed past := by
      rw [names, List.mem_eraseDups]
    by_cases h : name ∈ claimed past
    · simp [step, claim, foretold, mem, h]
    · simp [step, claim, foretold, mem, h]
  | defer block => rfl
  | finish => simp only [step, foretold, names, text]

/-! Claims and deferrals do not meet. -/

def Exchangeable (s t : Step) : Prop :=
  ∀ rest b, run (s :: t :: rest) b = run (t :: s :: rest) b

theorem exchangeable_claim_defer (name : String) (block : List Line) :
    Exchangeable (.claim name) (.defer block) := by
  intro rest b
  simp only [run_cons, step]
  by_cases h : name ∈ b.names
  · simp [claim, defer, h]
  · simp [claim, defer, h]

theorem run_moved {s : Step} {others : List Step} (h : ∀ t ∈ others, Exchangeable s t) (rest : List Step)
    (b : Backlog) : run (s :: (others ++ rest)) b = run (others ++ s :: rest) b := by
  induction others generalizing b with
  | nil => rfl
  | cons t others ih =>
    rw [List.cons_append, h t List.mem_cons_self]
    have later := ih (fun u hu => h u (List.mem_cons_of_mem _ hu)) (b.step t).2
    rw [run_cons, later, List.cons_append, run_cons]

/-- The same claims and finishes in the same order, and the same deferrals and finishes. -/
structure Interleaves (steps others : List Step) : Prop where
  claims : steps.filter (!·.isDeferral) = others.filter (!·.isDeferral)
  deferrals : steps.filter (!·.isClaim) = others.filter (!·.isClaim)

/-- A step that one of the filters keeps may come first, if its order with what the filter drops does not matter. -/
theorem exists_first {keeps other : Step → Bool} {s : Step} {rest others : List Step}
    (kept : (s :: rest).filter keeps = others.filter keeps)
    (same : (s :: rest).filter other = others.filter other) (hkeeps : keeps s = true)
    (hother : other s = false) (exchangeable : ∀ t, keeps t = false → Exchangeable s t) :
    ∃ later, (∀ b, run others b = run (s :: later) b) ∧ rest.filter keeps = later.filter keeps ∧
      rest.filter other = later.filter other := by
  rw [List.filter_cons_of_pos hkeeps] at kept
  rw [List.filter_cons_of_neg (by simp [hother])] at same
  obtain ⟨before, behind, rfl, dropped, -, hrest⟩ := List.filter_eq_cons_iff.mp kept.symm
  have moved := run_moved fun t ht => exchangeable t (by simpa using dropped t ht)
  refine ⟨before ++ behind, fun b => (moved behind b).symm, ?_, ?_⟩
  · rw [List.filter_append, List.filter_eq_nil_iff.mpr dropped, hrest, List.nil_append]
  · rw [same, List.filter_append, List.filter_append, List.filter_cons_of_neg (by simp [hother])]

theorem exchangeable_of_not_deferral {name : String} (t : Step) (h : (!t.isDeferral) = false) :
    Exchangeable (.claim name) t := by
  cases t with
  | defer block => exact exchangeable_claim_defer name block
  | _ => cases h

theorem exchangeable_of_not_claim {block : List Line} (t : Step) (h : (!t.isClaim) = false) :
    Exchangeable (.defer block) t := by
  cases t with
  | claim name => exact fun rest b => (exchangeable_claim_defer name block rest b).symm
  | _ => cases h

theorem Interleaves.run_eq {steps others : List Step} (h : Interleaves steps others) (b : Backlog) :
    run steps b = run others b := by
  induction steps generalizing others b with
  | nil =>
    cases others with
    | nil => rfl
    | cons s others =>
      obtain ⟨claims, deferrals⟩ := h
      cases s <;> simp [Step.isClaim, Step.isDeferral] at claims deferrals
  | cons s steps ih =>
    obtain ⟨claims, deferrals⟩ := h
    cases s with
    | claim name =>
      obtain ⟨later, first, laterClaims, laterDeferrals⟩ :=
        exists_first claims deferrals rfl rfl exchangeable_of_not_deferral
      rw [first, run_cons, run_cons, ih ⟨laterClaims, laterDeferrals⟩]
    | defer block =>
      obtain ⟨later, first, laterDeferrals, laterClaims⟩ :=
        exists_first deferrals claims rfl rfl exchangeable_of_not_claim
      rw [first, run_cons, run_cons, ih ⟨laterClaims, laterDeferrals⟩]
    | finish =>
      -- Nothing can stand before the finish: one of the two filters would keep it.
      cases others with
      | nil => cases claims
      | cons t others =>
        cases t with
        | finish => rw [run_cons, run_cons, ih ⟨(List.cons.inj claims).2, (List.cons.inj deferrals).2⟩]
        | claim name => cases claims
        | defer block => cases deferrals

/-- After any steps, what a backlog holds and answers is told from the steps since the last finish; claims
leave the texts alone and deferrals the names, and any other order of claims and deferrals between the
finishes comes to the same. -/
theorem run_by_history (past : List Step) :
    (after past).names = (claimed past).eraseDups ∧ (after past).text = String.join (deferred past) ∧
      (∀ s, ((after past).step s).1 = foretold past s) ∧
      (∀ b : Backlog, (∀ name, (b.claim name).2.text = b.text) ∧
        ∀ block, (b.defer block).names = b.names) ∧
      ∀ others, Interleaves past others → run past .empty = run others .empty :=
  ⟨(after_eq past).1, (after_eq past).2, step_foretold past,
    fun b => ⟨b.text_claim, fun _ => rfl⟩, fun _ h => h.run_eq .empty⟩

/-! A name is claimed twice and once more behind a finish; a text is put off sooner or later. -/

def sooner : List Step :=
  [.claim "A", .defer [.verbatim "a"], .claim "A", .finish, .claim "B", .claim "A"]

def later : List Step :=
  [.claim "A", .claim "A", .defer [.verbatim "a"], .finish, .claim "B", .claim "A"]

theorem run_by_history_later : Interleaves sooner later ∧ (after sooner).names = ["B", "A"] ∧
    foretold sooner (.claim "B") = some (.claimed false) ∧ run later .empty = run sooner .empty ∧
    (run later .empty).1 =
      [.claimed true, .claimed false, .finished "a" ["A"], .claimed true, .claimed true] := by
  have interleaves : Interleaves sooner later := ⟨rfl, rfl⟩
  obtain ⟨names, -, -, -, outcome⟩ := run_by_history sooner
  refine ⟨interleaves, ?_, by decide, (outcome later interleaves).symm, by decide⟩
  rw [names]
  decide

end LuaStubs.Backlog
