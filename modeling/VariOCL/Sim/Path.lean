import Mathlib.Logic.Relation

/-! Runs with the states they pass, and runs that do one body after the other. -/

namespace VariOCL.Sim

open Relation (ReflTransGen)

section
variable {σ : Type*} {step : σ → σ → Prop}

/-- The states passed, without the last one. -/
inductive Path (step : σ → σ → Prop) : σ → List σ → σ → Prop
  | nil (s : σ) : Path step s [] s
  | cons {s t u : σ} {cs : List σ} : step s t → Path step t cs u → Path step s (s :: cs) u

theorem Path.single {s t : σ} (h : step s t) : Path step s [s] t := .cons h (.nil t)

theorem Path.append {s t u : σ} {cs cs' : List σ} (h : Path step s cs t)
    (h' : Path step t cs' u) : Path step s (cs ++ cs') u := by
  induction h with
  | nil => exact h'
  | cons hs _ ih => exact .cons hs (ih h')

end

section
variable {σ ι κ : Type*} {outside : σ → Prop} {body : ι → List σ → Prop}

/-- The bodies `is` one after the other, with other states between them. -/
inductive Bodies (outside : σ → Prop) (body : ι → List σ → Prop) : List ι → List σ → Prop
  | nil : Bodies outside body [] []
  | skip {s : σ} {is : List ι} {cs : List σ} : outside s → Bodies outside body is cs →
      Bodies outside body is (s :: cs)
  | body {i : ι} {is : List ι} {bs cs : List σ} : body i bs → Bodies outside body is cs →
      Bodies outside body (i :: is) (bs ++ cs)

theorem Bodies.append {is js : List ι} {cs ds : List σ} (h : Bodies outside body is cs)
    (h' : Bodies outside body js ds) : Bodies outside body (is ++ js) (cs ++ ds) := by
  induction h with
  | nil => exact h'
  | skip hs _ ih => exact .skip hs ih
  | body hb _ ih =>
    rw [List.cons_append, List.append_assoc]
    exact .body hb ih

theorem Bodies.single {i : ι} {cs : List σ} (h : body i cs) : Bodies outside body [i] cs := by
  simpa using (Bodies.body h .nil : Bodies outside body [i] (cs ++ []))

end

end VariOCL.Sim
