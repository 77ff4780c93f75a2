import Cvmfs.Fetch.Collapse

/-! # Descriptors and answers

Every open reference is held by a caller, by a running call or by a pipe; every call is
running or has returned, once. -/

namespace Cvmfs.Fetch

open Lib (Table)
open Function Lib.Table List Reply

variable {Id : Type} [DecidableEq Id]

def Answer.ref (a : Answer Id) : Int × Id := (a.result, a.id)

omit [DecidableEq Id] in
theorem refs_append (id : Id) (fds fds' : List Int) :
    refs id (fds ++ fds') = refs id fds ++ refs id fds' := by
  simp [refs]

omit [DecidableEq Id] in
theorem refs_cons (id : Id) (fd : Int) (fds : List Int) :
    refs id (fd :: fds) = refs id [fd] ++ refs id fds := refs_append id [fd] fds

/-! ## References -/

def atHand (calls : Table Nat (Call Id)) (r : Int × Id) : Nat :=
  calls.sum fun _ c => (refs c.object.id c.pc.fds).count r

def inPipes (calls : Table Nat (Call Id)) (pipes : Nat → List (Reply Id)) (r : Int × Id) : Nat :=
  calls.sum fun t c => (refs c.object.id ((pipes t).map value)).count r

/-- All open references are accounted for. -/
def Accounted (opened : Int × Id → Nat) (held : List (Answer Id)) (calls : Table Nat (Call Id))
    (pipes : Nat → List (Reply Id)) : Prop :=
  ∀ r, opened r = (held.map Answer.ref).count r + atHand calls r + inPipes calls pipes r

namespace Accounted

variable {opened opened' : Int × Id → Nat} {held held' : List (Answer Id)}
  {calls : Table Nat (Call Id)} {pipes : Nat → List (Reply Id)} {t : Nat} {c : Call Id}

section

variable (h : Accounted opened held calls pipes) (hc : calls.find? t = some c)
include h hc

theorem put {pc} (hopened : ∀ r, opened' r + (refs c.object.id c.pc.fds).count r =
      opened r + (refs c.object.id pc.fds).count r) :
    Accounted opened' held (calls.put t { c with pc }) pipes := by
  intro r
  have hhand := sum_put (fun _ (c : Call Id) => (refs c.object.id c.pc.fds).count r)
    (u := { c with pc }) hc
  have hpipe := sum_put
    (fun t (c : Call Id) => (refs c.object.id ((pipes t).map value)).count r)
    (u := { c with pc }) hc
  have := h r
  have := hopened r
  simp only [atHand, inPipes] at *
  omega

theorem le (r : Int × Id) : (refs c.object.id c.pc.fds).count r ≤ opened r := by
  have := sum_erase (fun _ (c : Call Id) => (refs c.object.id c.pc.fds).count r) hc
  have := h r
  simp only [atHand] at *
  omega

theorem pipe_le (r : Int × Id) : (refs c.object.id ((pipes t).map value)).count r ≤ opened r := by
  have := sum_erase
    (fun t (c : Call Id) => (refs c.object.id ((pipes t).map value)).count r) hc
  have := h r
  simp only [inPipes] at *
  omega

theorem pipe {replies}
    (hopened : ∀ r, opened' r + (refs c.object.id ((pipes t).map value)).count r =
      opened r + (refs c.object.id (replies.map value)).count r) :
    Accounted opened' held calls (update pipes t replies) := by
  intro r
  have hpipe : (refs c.object.id ((pipes t).map value)).count r +
      inPipes calls (update pipes t replies) r =
      (refs c.object.id ((update pipes t replies t).map value)).count r +
        inPipes calls pipes r := by
    let weight (pipes : Nat → List (Reply Id)) (t : Nat) (c : Call Id) : Nat :=
      (refs c.object.id ((pipes t).map value)).count r
    refine sum_reweigh (w := weight pipes) hc fun u d _ hu => ?_
    simp only [weight, update_of_ne hu]
  rw [update_self] at hpipe
  have := h r
  have := hopened r
  omega

theorem erase (hpipe : pipes t = []) (hheld : ∀ r, (held'.map Answer.ref).count r =
      (held.map Answer.ref).count r + (refs c.object.id c.pc.fds).count r) :
    Accounted opened held' (calls.erase t) pipes := by
  intro r
  have hhand := sum_erase (fun _ (c : Call Id) => (refs c.object.id c.pc.fds).count r) hc
  have hpipes := sum_erase
    (fun t (c : Call Id) => (refs c.object.id ((pipes t).map value)).count r) hc
  rw [hpipe] at hpipes
  have := h r
  have := hheld r
  simp only [atHand, inPipes, refs, map_nil, filter_nil, count_nil] at *
  omega

end

theorem new (h : Accounted opened held calls pipes) (hc : calls.find? t = none)
    (hpipe : pipes t = []) (hfds : c.pc.fds = []) :
    Accounted opened held (calls.put t c) pipes := by
  intro r
  have hhand := sum_put_of_none (v := c)
    (fun _ (c : Call Id) => (refs c.object.id c.pc.fds).count r) hc
  have hpipes := sum_put_of_none (v := c)
    (fun t (c : Call Id) => (refs c.object.id ((pipes t).map value)).count r) hc
  rw [hpipe] at hpipes
  rw [hfds] at hhand
  have := h r
  simp only [atHand, inPipes, refs, map_nil, filter_nil, count_nil] at *
  omega

end Accounted

/-- A number is open on one object. -/
def Unambiguous (opened : List (Int × Id)) : Prop :=
  ∀ r ∈ opened, ∀ r' ∈ opened, r.1 = r'.1 → r.2 = r'.2

omit [DecidableEq Id] in
theorem Unambiguous.opening {opened : List (Int × Id)} (h : Unambiguous opened) {fd : Int} {id : Id}
    (hvalid : 0 ≤ fd → ∀ r ∈ opened, r.1 = fd → r.2 = id) :
    Unambiguous (refs id [fd] ++ opened) := by
  by_cases hfd : 0 ≤ fd
  · have hvalid := hvalid hfd
    have hnew : refs id [fd] = [(fd, id)] := by simp [refs, hfd]
    rw [hnew]
    intro r hr r' hr' heq
    rcases mem_cons.1 hr with rfl | hr <;> rcases mem_cons.1 hr' with rfl | hr'
    · rfl
    · exact (hvalid r' hr' heq.symm).symm
    · exact hvalid r hr heq
    · exact h r hr r' hr' heq
  · rw [refs_of_neg (Int.not_le.1 hfd)]
    exact h

theorem Unambiguous.erase {opened} (h : Unambiguous opened) (r : Int × Id) :
    Unambiguous (opened.erase r) :=
  fun a ha b hb => h a (mem_of_mem_erase ha) b (mem_of_mem_erase hb)

/-! ## Calls -/

def running (calls : Table Nat (Call Id)) (n : Nat) : Nat :=
  calls.sum fun _ c => if c.number = n then 1 else 0

/-- Every call is running or has returned, once. -/
def Numbered (calls : Table Nat (Call Id)) (returned : List (Answer Id)) (numCalls : Nat) : Prop :=
  ∀ n, running calls n + (returned.map Answer.number).count n = if n < numCalls then 1 else 0

namespace Numbered

variable {calls : Table Nat (Call Id)} {returned : List (Answer Id)} {numCalls t : Nat}
  {c : Call Id}

section

variable (h : Numbered calls returned numCalls)
include h

omit [DecidableEq Id] in
theorem put (hc : calls.find? t = some c) (pc : Pc) :
    Numbered (calls.put t { c with pc }) returned numCalls := by
  intro n
  have := sum_put (fun _ (c : Call Id) => if c.number = n then 1 else 0) (u := { c with pc }) hc
  have := h n
  simp only [running] at *
  omega

omit [DecidableEq Id] in
theorem new (hc : calls.find? t = none)
    (hn : c.number = numCalls) : Numbered (calls.put t c) returned (numCalls + 1) := by
  intro n
  have := sum_put_of_none (v := c) (fun _ (c : Call Id) => if c.number = n then 1 else 0) hc
  have := h n
  simp only [running, hn] at *
  grind

omit [DecidableEq Id] in
theorem returns (hc : calls.find? t = some c) (id : Id) (result : Int) :
    Numbered (calls.erase t) (⟨c.number, id, result⟩ :: returned) numCalls := by
  intro n
  have := sum_erase (fun _ (c : Call Id) => if c.number = n then 1 else 0) hc
  have := h n
  simp only [running, map_cons, count_cons, beq_iff_eq] at *
  omega

end

end Numbered

/-- The results that are descriptors are still held or closed by the caller. -/
def Delivered (returned held closed : List (Answer Id)) : Prop :=
  (returned.filter (0 ≤ ·.result)).Perm (held ++ closed)

omit [DecidableEq Id] in
theorem Delivered.returns {returned held closed} (h : Delivered returned held closed)
    (a : Answer Id) :
    Delivered (a :: returned) (if 0 ≤ a.result then a :: held else held) closed := by
  unfold Delivered at *
  split
  next hpos =>
    rw [filter_cons_of_pos (by simpa using hpos)]
    exact h.cons a
  next hneg => rwa [filter_cons_of_neg (by simpa using hneg)]

omit [DecidableEq Id] in
theorem Delivered.release {returned held closed : List (Answer Id)}
    (h : Delivered returned held closed) {i : Nat} {a : Answer Id} (ha : held[i]? = some a) :
    Delivered returned (held.eraseIdx i) (a :: closed) := by
  obtain ⟨hi, rfl⟩ := List.getElem?_eq_some_iff.1 ha
  refine h.trans ?_
  refine ((getElem_cons_eraseIdx_perm hi).symm.append_right closed).trans ?_
  exact perm_middle.symm

end Cvmfs.Fetch
