import Nlutils.Lib.Machine

/-! # Messages in a stream

Messages of one length are sent through a stream and put together again from the pieces in which they are read. A reader
that fails loses what it has read of a message, and with it the places where messages begin. -/

namespace Lib

/-- Messages that are sent as blocks of one length. -/
structure Framing (μ β : Type) where
  enc : μ → List β
  size : Nat
  pos : 0 < size
  length_enc : ∀ m, (enc m).length = size

/-- The stream, what the reader has of a message if it is reading one, and the messages that have been sent and those
    that have been read. -/
structure Framed (μ β : Type) where
  stream : List β := []
  part : Option (List β) := none
  sent : List μ := []
  got : List (List β) := []

inductive FrameAction (μ : Type)
  | send (m : μ)
  /-- The reader begins with a message. -/
  | start
  /-- It reads so many elements. -/
  | read (k : Nat)
  /-- It gives up. -/
  | fail
  deriving DecidableEq

namespace Framing
variable {μ β : Type} (F : Framing μ β)

def step (s : Framed μ β) : FrameAction μ → Option (Framed μ β)
  | .send m => some { s with stream := s.stream ++ F.enc m, sent := s.sent ++ [m] }
  | .start => some { s with part := some [] }
  | .read k =>
    s.part.map fun p =>
      let p := p ++ s.stream.take k
      if p.length < F.size then { s with stream := s.stream.drop k, part := some p }
      else { s with stream := s.stream.drop k, part := none, got := s.got ++ [p] }
  | .fail => some { s with part := none }

/-- There are so many elements to be read, and the message has room for them. -/
def Allows (s : Framed μ β) : FrameAction μ → Prop
  | .send _ => True
  | .start => s.part = none
  | .read k => ∃ p ∈ s.part, 0 < k ∧ p.length + k ≤ F.size ∧ k ≤ s.stream.length
  | .fail => s.part ≠ none

/-- The reader fails only when it has not read anything of a message. -/
def Lossless (s : Framed μ β) (a : FrameAction μ) : Prop := F.Allows s a ∧ (a = .fail → s.part = some [])

/-- As much is read as there is. -/
def Greedy (s : Framed μ β) (a : FrameAction μ) : Prop :=
  F.Allows s a ∧ ∀ k p, a = .read k → s.part = some p → k = min (F.size - p.length) s.stream.length

def machine : Machine (Framed μ β) (FrameAction μ) := ⟨{}, F.step⟩

/-- The messages that are on their way. -/
def pending (s : Framed μ β) : List μ := s.sent.drop s.got.length

/-- What has been read is what has been sent first, and the rest of it is on its way. -/
structure InOrder (s : Framed μ β) : Prop where
  got : s.got = (s.sent.take s.got.length).map F.enc
  rest : s.part.getD [] ++ s.stream = (pending s).flatMap F.enc
  short : ∀ p ∈ s.part, p.length < F.size

/-- What an action does to the messages that are on their way: it is what it does to a queue. -/
def Queues (s t : Framed μ β) : FrameAction μ → Prop
  | .send m => pending t = pending s ++ [m] ∧ t.got = s.got
  | .read _ => pending t = pending s ∧ t.got = s.got ∨ ∃ m, pending s = m :: pending t ∧ t.got = s.got ++ [F.enc m]
  | _ => pending t = pending s ∧ t.got = s.got

section
variable {F} {s t : Framed μ β} {a : FrameAction μ}

theorem InOrder.length_le (I : F.InOrder s) : s.got.length ≤ s.sent.length := by
  have hlen := congrArg List.length I.got
  rw [List.length_map, List.length_take] at hlen
  exact Nat.le_trans (Nat.le_of_eq hlen) (Nat.min_le_right _ _)

theorem inOrder_init : F.InOrder {} := ⟨rfl, rfl, nofun⟩

/-- A message is complete: it is the first that is on its way. -/
theorem InOrder.complete (I : F.InOrder s) {p : List β} {k : Nat} (hp : s.part = some p) (hlen : p.length + k = F.size)
    (hk : k ≤ s.stream.length) : ∃ m ms, pending s = m :: ms ∧ p ++ s.stream.take k = F.enc m ∧
      s.stream.drop k = ms.flatMap F.enc := by
  have hrest := I.rest
  rw [hp, Option.getD_some, ← List.take_append_drop k s.stream, ← List.append_assoc] at hrest
  have hsize : (p ++ s.stream.take k).length = F.size := by
    rw [List.length_append, List.length_take, Nat.min_eq_left hk, hlen]
  cases hpending : pending s with
  | nil =>
    rw [hpending, List.flatMap_nil] at hrest
    rw [(List.append_eq_nil_iff.mp hrest).1, List.length_nil] at hsize
    exact absurd hsize (Nat.ne_of_lt F.pos)
  | cons m ms =>
    rw [hpending, List.flatMap_cons] at hrest
    obtain ⟨hm, hms⟩ := List.append_inj hrest (hsize.trans (F.length_enc m).symm)
    exact ⟨m, ms, rfl, hm, hms⟩

theorem InOrder.step (I : F.InOrder s) (hok : F.Lossless s a) (hstep : F.step s a = some t) :
    F.InOrder t ∧ F.Queues s t a := by
  have hle := I.length_le
  cases a with
  | send m =>
    cases hstep
    have hpending : pending { s with stream := s.stream ++ F.enc m, sent := s.sent ++ [m] } = pending s ++ [m] :=
      List.drop_append_of_le_length hle
    refine ⟨⟨?_, ?_, I.short⟩, hpending, rfl⟩
    · rw [List.take_append_of_le_length hle]
      exact I.got
    · rw [hpending, List.flatMap_append, ← I.rest, ← List.append_assoc]
      simp
  | start =>
    cases hstep
    have hpart : s.part = none := hok.1
    have hrest := I.rest
    rw [hpart] at hrest
    refine ⟨⟨I.got, hrest, ?_⟩, rfl, rfl⟩
    intro p hp
    obtain rfl := Option.some.inj hp
    exact F.pos
  | fail =>
    cases hstep
    have hrest := I.rest
    rw [hok.2 rfl] at hrest
    exact ⟨⟨I.got, hrest, nofun⟩, rfl, rfl⟩
  | read k =>
    obtain ⟨p, hp, hpos, hroom, hk⟩ := hok.1
    have hp : s.part = some p := hp
    have hlen : (p ++ s.stream.take k).length = p.length + k := by
      rw [List.length_append, List.length_take, Nat.min_eq_left hk]
    simp only [Framing.step, hp, Option.map_some, Option.some.injEq, hlen] at hstep
    split at hstep
    · next hshort =>
      subst hstep
      have hrest := I.rest
      rw [hp, Option.getD_some, ← List.take_append_drop k s.stream, ← List.append_assoc] at hrest
      refine ⟨⟨I.got, hrest, ?_⟩, Or.inl ⟨rfl, rfl⟩⟩
      intro q hq
      rw [← Option.some.inj hq, hlen]
      exact hshort
    · next hfull =>
      subst hstep
      obtain ⟨m, ms, hpending, hm, hms⟩ := I.complete hp (by omega) hk
      have hdrop : s.sent.drop (s.got.length + 1) = ms := by
        rw [← List.drop_drop, show s.sent.drop s.got.length = m :: ms from hpending]
        rfl
      have htake : s.sent.take (s.got.length + 1) = s.sent.take s.got.length ++ [m] := by
        rw [List.take_add, show s.sent.drop s.got.length = m :: ms from hpending]
        rfl
      refine ⟨⟨?_, ?_, nofun⟩, Or.inr ⟨m, ?_, ?_⟩⟩
      · rw [List.length_append, List.length_singleton, htake, List.map_append, ← I.got, hm]
        rfl
      · simp only [pending, List.length_append, List.length_singleton, hdrop]
        exact hms
      · simp only [pending, List.length_append, List.length_singleton, hdrop]
        exact hpending
      · rw [hm]

/-- The messages are read in the order in which they are sent, each of them once, as if through a queue. -/
theorem reach_inOrder (h : F.machine.Reach F.Lossless s) : F.InOrder s :=
  h.invariant inOrder_init fun _ _ _ I hok hstep => (I.step hok hstep).1

/-- There is room for a message where anything is. -/
theorem InOrder.size_le (I : F.InOrder s) (hpart : s.part = some []) (hne : s.stream ≠ []) :
    F.size ≤ s.stream.length := by
  have hrest := I.rest
  rw [hpart, Option.getD_some, List.nil_append] at hrest
  cases hpending : pending s with
  | nil =>
    rw [hpending] at hrest
    exact absurd hrest hne
  | cons m ms =>
    rw [hrest, hpending, List.flatMap_cons, List.length_append, F.length_enc]
    exact Nat.le_add_right _ _

/-- Where as much is read as there is, a message is read as a whole, and nothing is lost. -/
theorem greedy_lossless (h : F.machine.Reach F.Greedy s) :
    F.machine.Reach F.Lossless s ∧ ∀ p, s.part = some p → p = [] := by
  refine h.invariant (I := fun s => F.machine.Reach F.Lossless s ∧ ∀ p, s.part = some p → p = []) ⟨.init, nofun⟩ ?_
  rintro s a t ⟨hreach, hpart⟩ ⟨hallows, hgreedy⟩ hstep
  have hlossless : F.Lossless s a := by
    refine ⟨hallows, ?_⟩
    rintro rfl
    obtain ⟨p, hp⟩ := Option.ne_none_iff_exists'.mp hallows
    rw [hp, hpart p hp]
  refine ⟨hreach.step hlossless hstep, ?_⟩
  cases a with
  | send m =>
    cases hstep
    exact hpart
  | start =>
    cases hstep
    exact fun p hp => (Option.some.inj hp).symm
  | fail =>
    cases hstep
    nofun
  | read k =>
    obtain ⟨p, hp, hpos, -, hk⟩ := hallows
    obtain rfl := hpart p hp
    have hne : s.stream ≠ [] := List.ne_nil_of_length_pos (Nat.lt_of_lt_of_le hpos hk)
    have hsize := (reach_inOrder hreach).size_le hp hne
    have hlen := hgreedy k [] rfl hp
    rw [List.length_nil, Nat.sub_zero, Nat.min_eq_left hsize] at hlen
    have hfull : ¬([] ++ s.stream.take k).length < F.size := by
      rw [List.nil_append, List.length_take, hlen, Nat.min_eq_left hsize]
      exact Nat.lt_irrefl _
    have hp : s.part = some [] := hp
    simp only [machine, Framing.step, hp, Option.map_some, Option.some.injEq, if_neg hfull] at hstep
    subst hstep
    nofun

end
end Framing
end Lib
