/-! # Interleaved streams

A log of tagged messages. The messages of one tag are a stream: pieces of data that
are to be put together, and an end mark. -/

namespace Cvmfs.Lib

open List

inductive Message (α : Type) where
  | data (piece : List α)
  | stop
  deriving DecidableEq

section

variable {τ α : Type} [DecidableEq τ] {log : List (τ × Message α)} {t t' : τ} {xs ys : List α}

def stream (log : List (τ × Message α)) (t : τ) : List (Message α) :=
  (log.filter fun m => m.1 = t).map Prod.snd

theorem stream_snoc_self (m : Message α) : stream (log ++ [(t, m)]) t = stream log t ++ [m] := by
  simp [stream]

theorem stream_snoc_other (h : t' ≠ t) (m : Message α) :
    stream (log ++ [(t', m)]) t = stream log t := by
  simp [stream, h]

def Carries (log : List (τ × Message α)) (t : τ) (xs : List α) : Prop :=
  ∃ pieces : List (List α), stream log t = pieces.map .data ∧ pieces.flatten = xs

/-- The data sent under a tag, with the only end mark behind it. -/
def Ended (log : List (τ × Message α)) (t : τ) (xs : List α) : Prop :=
  ∃ pieces : List (List α), stream log t = pieces.map .data ++ [.stop] ∧ pieces.flatten = xs

theorem Carries.fresh (h : ∀ m ∈ log, m.1 ≠ t) : Carries log t [] := by
  refine ⟨[], ?_, rfl⟩
  simp only [stream, map_nil, map_eq_nil_iff, filter_eq_nil_iff]
  intro m hm
  simpa using h m hm

theorem Carries.data (h : Carries log t xs) (piece : List α) :
    Carries (log ++ [(t, .data piece)]) t (xs ++ piece) := by
  obtain ⟨pieces, hlog, hflat⟩ := h
  refine ⟨pieces ++ [piece], ?_, by simp [hflat]⟩
  rw [stream_snoc_self, hlog, map_append, map_singleton]

theorem Carries.stop (h : Carries log t xs) : Ended (log ++ [(t, .stop)]) t xs := by
  obtain ⟨pieces, hlog, hflat⟩ := h
  exact ⟨pieces, by rw [stream_snoc_self, hlog], hflat⟩

theorem Ended.unique (h : Ended log t xs) (h' : Ended log t ys) : xs = ys := by
  obtain ⟨pieces, hlog, rfl⟩ := h
  obtain ⟨pieces', hlog', rfl⟩ := h'
  have hmap := append_cancel_right (hlog.symm.trans hlog')
  rw [(map_inj_right fun _ _ => Message.data.inj).1 hmap]

theorem Carries.other (h : Carries log t xs) (hne : t' ≠ t) (m : Message α) :
    Carries (log ++ [(t', m)]) t xs := by
  obtain ⟨pieces, hlog, hflat⟩ := h
  exact ⟨pieces, by rw [stream_snoc_other hne, hlog], hflat⟩

theorem Ended.other (h : Ended log t xs) (hne : t' ≠ t) (m : Message α) :
    Ended (log ++ [(t', m)]) t xs := by
  obtain ⟨pieces, hlog, hflat⟩ := h
  exact ⟨pieces, by rw [stream_snoc_other hne, hlog], hflat⟩

end

end Cvmfs.Lib
