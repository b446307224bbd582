import Mathlib.Data.List.Basic

/-!
# Runs of a machine with results

A machine is a step function that takes a state and an input to a result and the next state.
`run` feeds it a list of inputs and collects the results. A run is analysed through its steps:
an invariant (`run_invariant`), an invariant of the history so far when every result is good
(`run_history`), a relation between two runs on the same inputs, of one machine (`run_related`) or
of two (`run_simulated`), and inputs that leave no trace (`run_eliding`).
-/

namespace Machine

variable {σ ι ο : Type*} (step : σ → ι → ο × σ)

/-- Feed the inputs in order: the results, and the state reached. -/
def run : σ → List ι → List ο × σ
  | s, [] => ([], s)
  | s, i :: is => ((step s i).1 :: (run (step s i).2 is).1, (run (step s i).2 is).2)

@[simp] theorem run_nil (s : σ) : run step s [] = ([], s) := rfl

@[simp] theorem run_cons (s : σ) (i : ι) (is : List ι) :
    run step s (i :: is) =
      ((step s i).1 :: (run step (step s i).2 is).1, (run step (step s i).2 is).2) := rfl

theorem run_singleton (s : σ) (i : ι) : run step s [i] = ([(step s i).1], (step s i).2) := rfl

theorem run_append (s : σ) (is js : List ι) :
    run step s (is ++ js) =
      ((run step s is).1 ++ (run step (run step s is).2 js).1,
        (run step (run step s is).2 js).2) := by
  induction is generalizing s with
  | nil => rfl
  | cons i is ih => simp only [List.cons_append, run_cons, ih]

/-- What holds of every result of a run in two parts. -/
theorem forall_run_append {P : ο → Prop} {s : σ} {is js : List ι} :
    (∀ o ∈ (run step s (is ++ js)).1, P o) ↔
      (∀ o ∈ (run step s is).1, P o) ∧ ∀ o ∈ (run step (run step s is).2 js).1, P o := by
  rw [run_append, List.forall_mem_append]

@[simp] theorem length_run (s : σ) (is : List ι) : (run step s is).1.length = is.length := by
  induction is generalizing s with
  | nil => rfl
  | cons i is ih => simp only [run_cons, List.length_cons, ih]

/-- What the step on every input preserves, the run preserves. -/
theorem run_invariant {Inv : σ → Prop} {is : List ι}
    (hstep : ∀ s, ∀ i ∈ is, Inv s → Inv (step s i).2) {s : σ} (hs : Inv s) :
    Inv (run step s is).2 := by
  induction is generalizing s with
  | nil => exact hs
  | cons i is ih =>
    have hnext := hstep s i List.mem_cons_self hs
    exact ih (fun t j hj => hstep t j (List.mem_cons_of_mem i hj)) hnext

/-- The inputs of a run with their results. -/
def history (s : σ) (is : List ι) : List (ι × ο) := is.zip (run step s is).1

@[simp] theorem history_cons (s : σ) (i : ι) (is : List ι) :
    history step s (i :: is) = (i, (step s i).1) :: history step (step s i).2 is := rfl

@[simp] theorem map_fst_history (s : σ) (is : List ι) : (history step s is).map Prod.fst = is :=
  List.map_fst_zip (Nat.le_of_eq (length_run step s is).symm)

@[simp] theorem map_snd_history (s : σ) (is : List ι) :
    (history step s is).map Prod.snd = (run step s is).1 :=
  List.map_snd_zip (Nat.le_of_eq (length_run step s is))

theorem mem_of_mem_history {s : σ} {is : List ι} {x : ι × ο} (hx : x ∈ history step s is) :
    x.1 ∈ is := by
  rw [← map_fst_history step s is]
  exact List.mem_map_of_mem hx

theorem history_append (s : σ) (is js : List ι) :
    history step s (is ++ js) = history step s is ++ history step (run step s is).2 js := by
  rw [history, run_append]
  exact List.zip_append (length_run step s is).symm

/-- An invariant that speaks of the history so far, carried along a run whose results are all
good. -/
theorem run_history {Inv : List (ι × ο) → σ → Prop} {Good : ο → Prop}
    (hstep : ∀ hist s i, Inv hist s → Good (step s i).1 →
      Inv (hist ++ [(i, (step s i).1)]) (step s i).2)
    {hist : List (ι × ο)} {s : σ} (hs : Inv hist s) {is : List ι}
    (hgood : ∀ o ∈ (run step s is).1, Good o) :
    Inv (hist ++ history step s is) (run step s is).2 := by
  induction is generalizing hist s with
  | nil => simpa only [history, List.zip_nil_left, List.append_nil, run_nil] using hs
  | cons i is ih =>
    have hnext := hstep hist s i hs (hgood _ List.mem_cons_self)
    have htail := ih hnext fun o ho => hgood o (List.mem_cons_of_mem _ ho)
    rwa [List.append_assoc, List.singleton_append] at htail

/-- Two machines whose related states step to equal results and related states on every input run to
equal results and related states. -/
theorem run_simulated {τ : Type*} (step' : τ → ι → ο × τ) {R : σ → τ → Prop} (is : List ι)
    (hstep : ∀ s t, ∀ i ∈ is, R s t →
      (step s i).1 = (step' t i).1 ∧ R (step s i).2 (step' t i).2)
    {s : σ} {t : τ} (h : R s t) :
    (run step s is).1 = (run step' t is).1 ∧ R (run step s is).2 (run step' t is).2 := by
  induction is generalizing s t with
  | nil => exact ⟨rfl, h⟩
  | cons i is ih =>
    obtain ⟨hout, hnext⟩ := hstep s t i List.mem_cons_self h
    obtain ⟨houts, hlast⟩ := ih (fun s t j hj => hstep s t j (List.mem_cons_of_mem i hj)) hnext
    exact ⟨congrArg₂ List.cons hout houts, hlast⟩

/-- Related states that step to equal results and related states on every input run to equal results
and related states. -/
theorem run_related {R : σ → σ → Prop} {is : List ι}
    (hstep : ∀ s t, ∀ i ∈ is, R s t → (step s i).1 = (step t i).1 ∧ R (step s i).2 (step t i).2)
    {s t : σ} (h : R s t) :
    (run step s is).1 = (run step t is).1 ∧ R (run step s is).2 (run step t is).2 :=
  run_simulated step step is hstep h

/-- A machine that agrees with another one wherever the other's result and next state are good runs
as it does, as long as these are good. -/
theorem run_congr {step' : σ → ι → ο × σ} {G : ο → σ → Prop}
    (hstep : ∀ s i, G (step s i).1 (step s i).2 → step' s i = step s i)
    {s : σ} {is : List ι}
    (hgood : ∀ pre i post, is = pre ++ i :: post →
      G (step (run step s pre).2 i).1 (step (run step s pre).2 i).2) :
    run step' s is = run step s is := by
  induction is generalizing s with
  | nil => rfl
  | cons i is ih =>
    have hhead := hstep s i (hgood [] i is rfl)
    have htail := ih (s := (step s i).2) fun pre j post h =>
      hgood (i :: pre) j post (congrArg (i :: ·) h)
    rw [run_cons, run_cons, hhead, htail]

/-- A machine over another one that passes an input on or skips it, and skips none of the `Kept`
ones, takes the other one where the inputs it passes on do. -/
theorem run_skipping {τ π : Type*} {outer : τ → ι → π × τ} {inner : τ → σ} {Kept : ι → Prop}
    (hstep : ∀ t i, inner (outer t i).2 = (step (inner t) i).2 ∨
      ¬Kept i ∧ inner (outer t i).2 = inner t) (t : τ) (is : List ι) :
    ∃ js, js.Sublist is ∧ (∀ i ∈ is, Kept i → i ∈ js) ∧
      inner (run outer t is).2 = (run step (inner t) js).2 := by
  induction is generalizing t with
  | nil => exact ⟨[], .slnil, fun _ hi => absurd hi List.not_mem_nil, rfl⟩
  | cons i is ih =>
    obtain ⟨js, hsub, hkept, hrun⟩ := ih (outer t i).2
    rcases hstep t i with hpass | ⟨hnot, hskip⟩
    · rw [hpass] at hrun
      refine ⟨i :: js, hsub.cons_cons i, ?_, hrun⟩
      intro j hj hk
      rcases List.mem_cons.1 hj with rfl | hj
      · exact List.mem_cons_self
      · exact List.mem_cons_of_mem i (hkept j hj hk)
    · rw [hskip] at hrun
      refine ⟨js, hsub.cons i, ?_, hrun⟩
      intro j hj hk
      rcases List.mem_cons.1 hj with rfl | hj
      · exact absurd hk hnot
      · exact hkept j hj hk

/-- Inputs that keep a state related to a second one that does not take them can be left out: the
other inputs give the same results, and the states stay related. -/
theorem run_eliding {R : σ → σ → Prop} (kept : ι → Bool)
    (hkept : ∀ s t i, R s t → kept i = true →
      (step s i).1 = (step t i).1 ∧ R (step s i).2 (step t i).2)
    (hskip : ∀ s t i, R s t → kept i = false → R (step s i).2 t) {s t : σ} (h : R s t)
    (is : List ι) :
    (history step s is).filter (fun x => kept x.1) = history step t (is.filter kept) ∧
      R (run step s is).2 (run step t (is.filter kept)).2 := by
  induction is generalizing s t with
  | nil => exact ⟨rfl, h⟩
  | cons i is ih =>
    cases hi : kept i with
    | true =>
      obtain ⟨hout, hnext⟩ := hkept s t i h hi
      obtain ⟨hhist, hlast⟩ := ih hnext
      have hfilter : (i :: is).filter kept = i :: is.filter kept := List.filter_cons_of_pos hi
      rw [hfilter]
      refine ⟨?_, hlast⟩
      simp only [history_cons, List.filter_cons, hi, if_true, hhist, hout]
    | false =>
      obtain ⟨hhist, hlast⟩ := ih (hskip s t i h hi)
      have hfilter : (i :: is).filter kept = is.filter kept := by
        simp only [List.filter_cons, hi, Bool.false_eq_true, if_false]
      rw [hfilter]
      refine ⟨?_, hlast⟩
      simp only [history_cons, List.filter_cons, hi, Bool.false_eq_true, if_false, hhist]

/-! ## Stopping at the first bad result -/

section Latched

variable (good : ο → Bool)

/-- A step of the machine behind a flag that a bad result clears for good. -/
def latched (l : Bool × σ) (i : ι) : Bool × σ :=
  if l.1 = true then (good (step l.2 i).1, (step l.2 i).2) else l

theorem foldl_latched_false (s : σ) (is : List ι) :
    is.foldl (latched step good) (false, s) = (false, s) := by
  induction is with
  | nil => rfl
  | cons i is ih => exact ih

/-- The inputs up to the first bad result are taken, those behind it are not. -/
theorem foldl_latched (s : σ) (is : List ι) :
    ∃ taken rest, is = taken ++ rest ∧ (∀ o ∈ (run step s taken).1, good o = true) ∧
      (rest = [] ∧ is.foldl (latched step good) (true, s) = (true, (run step s taken).2) ∨
        ∃ i behind, rest = i :: behind ∧ good (step (run step s taken).2 i).1 = false ∧
          is.foldl (latched step good) (true, s) = (false, (step (run step s taken).2 i).2)) := by
  induction is generalizing s with
  | nil => exact ⟨[], [], rfl, fun o ho => absurd ho List.not_mem_nil, .inl ⟨rfl, rfl⟩⟩
  | cons i is ih =>
    have hstep : (i :: is).foldl (latched step good) (true, s) =
        is.foldl (latched step good) (good (step s i).1, (step s i).2) := rfl
    rw [hstep]
    cases hgood : good (step s i).1 with
    | false =>
      rw [foldl_latched_false]
      exact ⟨[], i :: is, rfl, fun o ho => absurd ho List.not_mem_nil,
        .inr ⟨i, is, rfl, hgood, rfl⟩⟩
    | true =>
      obtain ⟨taken, rest, rfl, hall, hend⟩ := ih (step s i).2
      exact ⟨i :: taken, rest, rfl, List.forall_mem_cons.2 ⟨hgood, hall⟩, hend⟩

end Latched

end Machine
