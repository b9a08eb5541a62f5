import RCore.Lib.Prog

/-! What a program over locked cells asks for while it runs, whether it comes to an end
or not: every cell it opens, and every visit of all the cells, with the locks that are
held at that moment. -/

namespace RCore.Lib

inductive Event (κ : Type) where
  | request (key : κ) (held : List κ)
  | sync (held : List κ)

namespace Event

variable {κ : Type}

/-- The lock that is asked for is not held already, and all the cells are visited only
while none is. -/
def Free : Event κ → Prop
  | .request key held => key ∉ held
  | .sync held => held = []

/-- A cell is opened while fewer than `n` locks are held. -/
def Below (n : ℕ) : Event κ → Prop
  | .request _ held => held.length < n
  | .sync _ => True

/-- A cell that is opened satisfies `P`. -/
def Asks (P : κ → Prop) : Event κ → Prop
  | .request key _ => P key
  | .sync _ => True

end Event

namespace Prog

variable {κ ν α β : Type} [DecidableEq κ]

/-- The events of a run, in order. A run that fails, or that waits for a lock it holds,
has those up to that point. -/
def trace : {α : Type} → Prog κ ν α → List κ → (κ → ν) → List (Event κ)
  | _, .ret _, _, _ => []
  | _, .fail, _, _ => []
  | _, .read key body k, held, d =>
    .request key held :: if key ∈ held then []
      else (body (d key)).trace (key :: held) d ++
        match (body (d key)).run (key :: held) d with
        | none => []
        | some (b, d') => (k b).trace held d'
  | _, .modify key body k, held, d =>
    .request key held :: if key ∈ held then []
      else (body (d key)).trace (key :: held) d ++
        match (body (d key)).run (key :: held) d with
        | none => []
        | some ((v, b), d') => (k b).trace held (Function.update d' key v)
  | _, .sync k, held, d => .sync held :: if held = [] then k.trace held d else []

/-- All the events of a run satisfy `P`. -/
def Always (P : Event κ → Prop) (p : Prog κ ν α) (held : List κ) (d : κ → ν) : Prop :=
  ∀ e ∈ p.trace held d, P e

section rules

variable {P : Event κ → Prop} {held : List κ} {d : κ → ν}

theorem always_ret (a : α) : (ret a : Prog κ ν α).Always P held d := by
  intro e he
  cases he

theorem always_fail : (fail : Prog κ ν α).Always P held d := by
  intro e he
  cases he

theorem always_assert (p : Prop) [Decidable p] : (assert p : Prog κ ν Unit).Always P held d := by
  rw [assert]
  split_ifs
  · exact always_ret ()
  · exact always_fail

theorem always_ofOption (o : Option α) : (ofOption o : Prog κ ν α).Always P held d := by
  cases o
  · exact always_fail
  · exact always_ret _

/-- A cell is opened: what its closure does, and what follows it. -/
theorem always_read {key : κ} {body : ν → Prog κ ν β} {k : β → Prog κ ν α}
    (hreq : P (.request key held))
    (hbody : key ∉ held → (body (d key)).Always P (key :: held) d)
    (hk : key ∉ held → ∀ b d', (body (d key)).run (key :: held) d = some (b, d') →
      (k b).Always P held d') : (read key body k).Always P held d := by
  intro e he
  rw [trace, List.mem_cons] at he
  rcases he with rfl | he
  · exact hreq
  · split_ifs at he with hheld
    · cases he
    · rcases List.mem_append.mp he with he | he
      · exact hbody hheld e he
      · cases hr : (body (d key)).run (key :: held) d with
        | none =>
          rw [hr] at he
          cases he
        | some r =>
          rw [hr] at he
          exact hk hheld r.1 r.2 hr e he

theorem always_modify {key : κ} {body : ν → Prog κ ν (ν × β)} {k : β → Prog κ ν α}
    (hreq : P (.request key held))
    (hbody : key ∉ held → (body (d key)).Always P (key :: held) d)
    (hk : key ∉ held → ∀ v b d', (body (d key)).run (key :: held) d = some ((v, b), d') →
      (k b).Always P held (Function.update d' key v)) : (modify key body k).Always P held d := by
  intro e he
  rw [trace, List.mem_cons] at he
  rcases he with rfl | he
  · exact hreq
  · split_ifs at he with hheld
    · cases he
    · rcases List.mem_append.mp he with he | he
      · exact hbody hheld e he
      · cases hr : (body (d key)).run (key :: held) d with
        | none =>
          rw [hr] at he
          cases he
        | some r =>
          obtain ⟨⟨v, b⟩, d'⟩ := r
          rw [hr] at he
          exact hk hheld v b d' hr e he

theorem always_sync {k : Prog κ ν α} (hsync : P (.sync held))
    (hk : held = [] → k.Always P held d) : (sync k).Always P held d := by
  intro e he
  rw [trace, List.mem_cons] at he
  rcases he with rfl | he
  · exact hsync
  · split_ifs at he with hheld
    · exact hk hheld e he
    · cases he

/-- What holds of a run that opens a cell holds of its parts. -/
theorem Always.of_read {key : κ} {body : ν → Prog κ ν β} {k : β → Prog κ ν α}
    (h : (read key body k).Always P held d) :
    P (.request key held) ∧ (key ∉ held → (body (d key)).Always P (key :: held) d ∧
      ∀ b d', (body (d key)).run (key :: held) d = some (b, d') → (k b).Always P held d') := by
  simp only [Always, trace, List.mem_cons, forall_eq_or_imp] at h
  refine ⟨h.1, fun hkey => ?_⟩
  have hrest := h.2
  rw [if_neg hkey] at hrest
  refine ⟨fun e he => hrest e (List.mem_append_left _ he), fun b d' hr e he => hrest e ?_⟩
  rw [hr]
  exact List.mem_append_right _ he

theorem Always.of_modify {key : κ} {body : ν → Prog κ ν (ν × β)} {k : β → Prog κ ν α}
    (h : (modify key body k).Always P held d) :
    P (.request key held) ∧ (key ∉ held → (body (d key)).Always P (key :: held) d ∧
      ∀ v b d', (body (d key)).run (key :: held) d = some ((v, b), d') →
        (k b).Always P held (Function.update d' key v)) := by
  simp only [Always, trace, List.mem_cons, forall_eq_or_imp] at h
  refine ⟨h.1, fun hkey => ?_⟩
  have hrest := h.2
  rw [if_neg hkey] at hrest
  refine ⟨fun e he => hrest e (List.mem_append_left _ he), fun v b d' hr e he => hrest e ?_⟩
  rw [hr]
  exact List.mem_append_right _ he

theorem Always.of_sync {k : Prog κ ν α} (h : (sync k).Always P held d) :
    P (.sync held) ∧ (held = [] → k.Always P held d) := by
  simp only [Always, trace, List.mem_cons, forall_eq_or_imp] at h
  refine ⟨h.1, fun hheld => ?_⟩
  have hrest := h.2
  rw [if_pos hheld] at hrest
  exact hrest

/-- The events of a sequence are those of the first part, followed by those of the second
if the first came to an end. -/
theorem trace_bind (p : Prog κ ν α) (f : α → Prog κ ν β) (held : List κ) (d : κ → ν) :
    (p >>= f).trace held d = p.trace held d ++
      match p.run held d with
      | none => []
      | some (a, d') => (f a).trace held d' := by
  change (p.bind f).trace held d = _
  induction p generalizing held d with
  | ret a => rfl
  | fail => rfl
  | read key body k _ ihk =>
    simp only [bind, trace, run]
    by_cases hkey : key ∈ held
    · simp [hkey]
    · cases (body (d key)).run (key :: held) d with
      | none => simp [hkey]
      | some r => simp [hkey, ihk]
  | modify key body k _ ihk =>
    simp only [bind, trace, run]
    by_cases hkey : key ∈ held
    · simp [hkey]
    · cases (body (d key)).run (key :: held) d with
      | none => simp [hkey]
      | some r => simp [hkey, ihk]
  | sync k ih =>
    simp only [bind, trace, run]
    by_cases hheld : held = []
    · simp [hheld, ih]
    · simp [hheld]

theorem always_bind {p : Prog κ ν α} {f : α → Prog κ ν β} (hp : p.Always P held d)
    (hf : ∀ a d', p.run held d = some (a, d') → (f a).Always P held d') :
    (p >>= f).Always P held d := by
  intro e he
  rw [trace_bind, List.mem_append] at he
  rcases he with he | he
  · exact hp e he
  · cases hr : p.run held d with
    | none =>
      rw [hr] at he
      cases he
    | some r =>
      rw [hr] at he
      exact hf r.1 r.2 hr e he

/-- What holds of a sequence holds of its parts. -/
theorem Always.of_bind {p : Prog κ ν α} {f : α → Prog κ ν β} (h : (p >>= f).Always P held d) :
    p.Always P held d ∧ ∀ a d', p.run held d = some (a, d') → (f a).Always P held d' := by
  rw [Always, trace_bind] at h
  refine ⟨fun e he => h e (List.mem_append_left _ he), fun a d' hr e he => h e ?_⟩
  rw [hr]
  exact List.mem_append_right _ he

/-- Sequencing after a part whose result is known. -/
theorem always_bind_of {p : Prog κ ν α} {f : α → Prog κ ν β} {a : α} {e : κ → ν}
    (hr : p.run held d = some (a, e)) (hp : p.Always P held d) (hf : (f a).Always P held e) :
    (p >>= f).Always P held d := by
  refine always_bind hp fun a' d' hr' => ?_
  rw [hr, Option.some.injEq, Prod.mk.injEq] at hr'
  rw [← hr'.1, ← hr'.2]
  exact hf

theorem Always.and {Q : Event κ → Prop} {p : Prog κ ν α} (hP : p.Always P held d)
    (hQ : p.Always Q held d) : p.Always (fun e => P e ∧ Q e) held d :=
  fun e he => ⟨hP e he, hQ e he⟩

end rules

/-- A program that comes to an end never waits for a lock it holds. -/
theorem always_free_of_run {p : Prog κ ν α} {held : List κ} {d d' : κ → ν} {a : α}
    (h : p.run held d = some (a, d')) : p.Always Event.Free held d := by
  induction p generalizing held d d' with
  | ret r => exact always_ret r
  | fail => exact always_fail
  | read key body k ihb ihk =>
    simp only [run] at h
    split_ifs at h with hkey
    cases hr : (body (d key)).run (key :: held) d with
    | none => simp [hr] at h
    | some r =>
      simp only [hr] at h
      refine always_read hkey (fun _ => ihb _ hr) fun _ b d₁ hb => ?_
      rw [hr, Option.some.injEq] at hb
      subst hb
      exact ihk _ h
  | modify key body k ihb ihk =>
    simp only [run] at h
    split_ifs at h with hkey
    cases hr : (body (d key)).run (key :: held) d with
    | none => simp [hr] at h
    | some r =>
      obtain ⟨⟨v, b⟩, d₁⟩ := r
      simp only [hr] at h
      refine always_modify hkey (fun _ => ihb _ hr) fun _ v' b' d₁' hb => ?_
      rw [hr, Option.some.injEq, Prod.mk.injEq, Prod.mk.injEq] at hb
      obtain ⟨⟨rfl, rfl⟩, rfl⟩ := hb
      exact ihk _ h
  | sync k ih =>
    simp only [run] at h
    split_ifs at h with hheld
    exact always_sync hheld fun _ => ih h

/-- The frame of a program: it depends on the cells it asks for, and changes no others. -/
theorem run_frame {K : κ → Prop} {p : Prog κ ν α} {held : List κ} {d e : κ → ν}
    (h : p.Always (Event.Asks K) held d) (hde : ∀ k, K k → e k = d k) :
    (p.run held d = none → p.run held e = none) ∧
    ∀ a d', p.run held d = some (a, d') → ∃ e', p.run held e = some (a, e') ∧
      (∀ k, K k → e' k = d' k) ∧ ∀ k, ¬ K k → e' k = e k ∧ d' k = d k := by
  induction p generalizing held d e with
  | ret r =>
    refine ⟨(fun hr => by cases hr), fun a d' hr => ?_⟩
    cases hr
    exact ⟨e, rfl, hde, fun k _ => ⟨rfl, rfl⟩⟩
  | fail => exact ⟨fun _ => rfl, fun a d' hr => by cases hr⟩
  | read key body k ihb ihk =>
    obtain ⟨hkey, hparts⟩ := h.of_read
    simp only [run]
    by_cases hheld : key ∈ held
    · rw [if_pos hheld, if_pos hheld]
      exact ⟨fun _ => rfl, fun a d' hr => by cases hr⟩
    obtain ⟨hb, hk⟩ := hparts hheld
    obtain ⟨hnone, hsome⟩ := ihb (d key) hb hde
    rw [if_neg hheld, if_neg hheld, hde key hkey]
    cases hr : (body (d key)).run (key :: held) d with
    | none =>
      rw [hnone hr]
      exact ⟨fun _ => rfl, fun a d' hr => by cases hr⟩
    | some r =>
      obtain ⟨e₁, hr₁, hin₁, hout₁⟩ := hsome r.1 r.2 hr
      rw [hr₁]
      obtain ⟨hnone', hsome'⟩ := ihk r.1 (hk r.1 r.2 hr) hin₁
      refine ⟨hnone', fun a d' hrun => ?_⟩
      obtain ⟨e', hr', hin, hout⟩ := hsome' a d' hrun
      refine ⟨e', hr', hin, fun c hc => ?_⟩
      rw [(hout c hc).1, (hout c hc).2]
      exact hout₁ c hc
  | modify key body k ihb ihk =>
    obtain ⟨hkey, hparts⟩ := h.of_modify
    simp only [run]
    by_cases hheld : key ∈ held
    · rw [if_pos hheld, if_pos hheld]
      exact ⟨fun _ => rfl, fun a d' hr => by cases hr⟩
    obtain ⟨hb, hk⟩ := hparts hheld
    obtain ⟨hnone, hsome⟩ := ihb (d key) hb hde
    rw [if_neg hheld, if_neg hheld, hde key hkey]
    cases hr : (body (d key)).run (key :: held) d with
    | none =>
      rw [hnone hr]
      exact ⟨fun _ => rfl, fun a d' hr => by cases hr⟩
    | some r =>
      obtain ⟨⟨v, b⟩, d₁⟩ := r
      obtain ⟨e₁, hr₁, hin₁, hout₁⟩ := hsome (v, b) d₁ hr
      rw [hr₁]
      have hstored : ∀ c, K c → Function.update e₁ key v c = Function.update d₁ key v c := by
        intro c hc
        rw [Function.update_apply, Function.update_apply, hin₁ c hc]
      obtain ⟨hnone', hsome'⟩ := ihk b (hk v b d₁ hr) hstored
      refine ⟨hnone', fun a d' hrun => ?_⟩
      obtain ⟨e', hr', hin, hout⟩ := hsome' a d' hrun
      refine ⟨e', hr', hin, fun c hc => ?_⟩
      have hne : c ≠ key := by
        rintro rfl
        exact hc hkey
      rw [(hout c hc).1, (hout c hc).2, Function.update_of_ne hne, Function.update_of_ne hne]
      exact hout₁ c hc
  | sync k ih =>
    obtain ⟨-, hk⟩ := h.of_sync
    simp only [run]
    by_cases hheld : held = []
    · rw [if_pos hheld, if_pos hheld]
      exact ih (hk hheld) hde
    · rw [if_neg hheld, if_neg hheld]
      exact ⟨fun _ => rfl, fun a d' hr => by cases hr⟩

/-- A program that holds at most `n` locks at once opens a cell while fewer are held. -/
theorem always_below_of_within {n : ℕ} {p : Prog κ ν α} (hp : p.Within n) (held : List κ)
    (d : κ → ν) : p.Always (Event.Below (held.length + n)) held d := by
  induction p generalizing n held d with
  | ret a => exact always_ret a
  | fail => exact always_fail
  | read key body k ihb ihk =>
    obtain ⟨hpos, hb, hk⟩ := hp
    refine always_read ?_ (fun _ => ?_) fun _ b d' _ => ihk b (hk b) held d'
    · exact Nat.lt_add_of_pos_right hpos
    · have := ihb (d key) (hb _) (key :: held) d
      rwa [List.length_cons, show held.length + 1 + (n - 1) = held.length + n by omega] at this
  | modify key body k ihb ihk =>
    obtain ⟨hpos, hb, hk⟩ := hp
    refine always_modify ?_ (fun _ => ?_) fun _ v b d' _ => ihk b (hk b) held _
    · exact Nat.lt_add_of_pos_right hpos
    · have := ihb (d key) (hb _) (key :: held) d
      rwa [List.length_cons, show held.length + 1 + (n - 1) = held.length + n by omega] at this
  | sync k ih => exact always_sync trivial fun _ => ih hp held d

end Prog

end RCore.Lib
