import Mathlib.Data.List.Basic

/-! Cutting a list into chunks of one length, and pieces laid end to end with
the offsets at which they begin and end. -/

namespace Chunks

universe u

open List

variable {α : Type u}

def chunksFrom (c : Nat) : Nat → List α → List (List α)
  | 0, _ => []
  | _+1, [] => []
  | fuel+1, x :: xs => (x :: xs).take c :: chunksFrom c fuel ((x :: xs).drop c)

def chunks (c : Nat) (xs : List α) : List (List α) := chunksFrom c xs.length xs

@[simp] lemma chunks_nil (c : Nat) : chunks c ([] : List α) = [] := rfl

variable {c : Nat}

variable {xs : List α}

lemma chunksFrom_enough (hc : 0 < c) {fuel fuel' : Nat}
    (h : xs.length ≤ fuel) (h' : xs.length ≤ fuel') : chunksFrom c fuel xs = chunksFrom c fuel' xs := by
  induction fuel generalizing xs fuel' with
  | zero =>
    rw [length_eq_zero_iff.mp (Nat.le_zero.mp h)]
    cases fuel' <;> rfl
  | succ fuel ih =>
    cases xs with
    | nil => cases fuel' <;> rfl
    | cons x xs =>
      cases fuel' with
      | zero => simp at h'
      | succ fuel' =>
        have hd : ((x :: xs).drop c).length ≤ xs.length := by simp; omega
        simp only [length_cons,Nat.add_le_add_iff_right] at h h'
        rw [chunksFrom,chunksFrom,ih (Nat.le_trans hd h) (Nat.le_trans hd h')]

lemma chunks_of_ne_nil (hc : 0 < c) (h : xs ≠ []) :
    chunks c xs = xs.take c :: chunks c (xs.drop c) := by
  cases xs with
  | nil => exact absurd rfl h
  | cons x xs =>
    rw [chunks,length_cons,chunksFrom]
    congr 1
    exact chunksFrom_enough hc (by simp; omega) (Nat.le_refl _)

lemma chunks_append (hx : xs.length = c) (hne : xs ≠ [])
    (ys : List α) : chunks c (xs ++ ys) = xs :: chunks c ys := by
  have hc : 0 < c := hx ▸ length_pos_of_ne_nil hne
  rw [chunks_of_ne_nil hc (by simp [hne]),take_left' hx,drop_left' hx]

lemma chunks_short (hne : xs ≠ []) (hc : xs.length ≤ c) : chunks c xs = [xs] := by
  have hp : 0 < c := Nat.lt_of_lt_of_le (length_pos_of_ne_nil hne) hc
  rw [chunks_of_ne_nil hp hne,take_of_length_le hc,drop_of_length_le hc,chunks_nil]

lemma chunks_flatten {full : List (List α)} (hf : ∀ x ∈ full, x.length = c)
    (hc : 0 < c) (rest : List α) : chunks c (full.flatten ++ rest) = full ++ chunks c rest := by
  induction full with
  | nil => rfl
  | cons x full ih =>
    have hx := hf x mem_cons_self
    have hne : x ≠ [] := ne_nil_of_length_pos (hx ▸ hc)
    rw [flatten_cons,append_assoc,chunks_append hx hne,ih fun y hy => hf y (mem_cons_of_mem _ hy)]
    rfl

lemma flatten_chunks (hc : 0 < c) (xs : List α) : (chunks c xs).flatten = xs := by
  induction hn : xs.length using Nat.strongRecOn generalizing xs with
  | ind n ih =>
    by_cases hne : xs = []
    · rw [hne]; rfl
    · have hp := length_pos_of_ne_nil hne
      rw [chunks_of_ne_nil hc hne,flatten_cons,
        ih (xs.drop c).length (by rw [length_drop]; omega) _ rfl,take_append_drop]

lemma chunks_length (hc : 0 < c) (xs : List α) : (chunks c xs).length = (xs.length+c-1)/c := by
  induction hn : xs.length using Nat.strongRecOn generalizing xs with
  | ind n ih =>
    subst hn
    by_cases hne : xs = []
    · rw [hne,chunks_nil,length_nil,length_nil,Nat.zero_add,Nat.div_eq_of_lt (by omega)]
    · have hp := length_pos_of_ne_nil hne
      rw [chunks_of_ne_nil hc hne,length_cons,
        ih (xs.drop c).length (by rw [length_drop]; omega) _ rfl,length_drop]
      by_cases hle : xs.length ≤ c
      · have hz : (xs.length-c+c-1)/c = 0 := Nat.div_eq_of_lt (by omega)
        have ho : (xs.length+c-1)/c = 1 := by
          rw [show xs.length+c-1 = c+(xs.length-1) by omega,Nat.add_div_left _ hc,
            Nat.div_eq_of_lt (by omega)]
        omega
      · rw [show xs.length+c-1 = c+(xs.length-c+c-1) by omega,Nat.add_div_left _ hc]

def offsets : Nat → List (List α) → List Nat
  | start, [] => [start]
  | start, p :: ps => start :: offsets (start+p.length) ps

def cut (xs : List α) : List Nat → List (List α)
  | a :: b :: rest => (xs.drop a).take (b-a) :: cut xs (b :: rest)
  | _ => []

@[simp] lemma offsets_length (start : Nat) (ps : List (List α)) :
    (offsets start ps).length = ps.length+1 := by
  induction ps generalizing start with
  | nil => rfl
  | cons p ps ih => simp [offsets,ih]

lemma offsets_append (start : Nat) (ps : List (List α)) (p : List α) :
    offsets start (ps ++ [p]) = offsets start ps ++ [start+ps.flatten.length+p.length] := by
  induction ps generalizing start with
  | nil => simp [offsets]
  | cons q ps ih => simp [offsets,ih,Nat.add_assoc]

lemma le_of_mem_offsets {start n : Nat} {ps : List (List α)} (h : n ∈ offsets start ps) :
    n ≤ start+ps.flatten.length := by
  induction ps generalizing start with
  | nil => simp_all [offsets]
  | cons p ps ih =>
    rcases mem_cons.mp h with rfl | h
    · exact Nat.le_add_right _ _
    · have := ih h
      simp only [flatten_cons,length_append]
      omega

lemma cut_offsets (front : List α) (ps : List (List α)) :
    cut (front ++ ps.flatten) (offsets front.length ps) = ps := by
  induction ps generalizing front with
  | nil => rfl
  | cons p ps ih =>
    have hr := ih (front ++ p)
    rw [length_append] at hr
    have hc : cut (front ++ (p :: ps).flatten) (offsets front.length (p :: ps)) =
        ((front ++ (p :: ps).flatten).drop front.length).take (front.length+p.length-front.length) ::
          cut (front ++ (p :: ps).flatten) (offsets (front.length+p.length) ps) := by
      cases ps <;> rfl
    rw [hc,drop_left,Nat.add_sub_cancel_left,flatten_cons,take_left,← append_assoc,hr]

end Chunks
