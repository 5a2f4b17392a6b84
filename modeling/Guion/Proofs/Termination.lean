import Guion.Proofs.Congruence

/-!
# Every evaluation ends

The appliers count down a budget of nested calls, and a run that finds none left is exhausted.  A
call of a script function is refused at the depth limit, so no run needs a larger budget than the
calls that the limit still admits: with that many it is not exhausted, and more change nothing.

    limit - w.depth ≤ n →
      eval (applier host limit n) node scope w = evaluate host limit node scope w
    (evaluate host limit node scope w).1 ≠ .error .exhausted                       (eval_settles)
-/

namespace Guion

/-! ## Recursion limits -/

/-- The recursion limit of the second world is that of the first or was raised from it. -/
structure World.RoomLe (w w' : World) : Prop where
  le : w.room ≤ w'.room
  most : w'.room ≤ mostRoom ∨ w'.room = w.room

theorem World.RoomLe.refl (w : World) : w.RoomLe w := ⟨Int.le_refl _, .inr rfl⟩

theorem World.RoomLe.of_eq {w w' : World} (h : w'.room = w.room) : w.RoomLe w' :=
  ⟨Int.le_of_eq h.symm, .inr h⟩

theorem World.RoomLe.trans {u v w : World} (huv : u.RoomLe v) (hvw : v.RoomLe w) : u.RoomLe w := by
  obtain ⟨hle, hmost⟩ := huv
  obtain ⟨hle', hmost'⟩ := hvw
  exact ⟨by omega, by omega⟩

namespace Eval

theorem reserve_roomLe (limit : Nat) (w : World) : w.RoomLe (reserve limit w).2 := by
  rcases reserve_cases limit w with ⟨-, h⟩ | ⟨-, hroom, hmost, h⟩ | ⟨-, -, -, h⟩ <;> rw [h]
  · exact .refl w
  · exact ⟨Int.le_of_lt hroom, .inl hmost⟩
  · exact .of_eq rfl

/-- A call finds enough room under the limit, or the host can be set to give it; only the outermost
one asks for it. -/
def HasRoom (limit : Nat) (w : World) : Prop :=
  w.depth = 0 → roomFor limit ≤ w.room ∨ roomFor limit ≤ mostRoom

theorem hasRoom_of_pos {limit : Nat} {w : World} (h : 0 < w.depth) : HasRoom limit w :=
  fun hzero => absurd hzero (Nat.ne_of_gt h)

theorem reserve_of_hasRoom {limit : Nat} {w : World} (h : HasRoom limit w) :
    (reserve limit w).1 = .ok () := by
  rcases reserve_cases limit w with ⟨-, hr⟩ | ⟨-, -, -, hr⟩ | ⟨hzero, hroom, hmost, -⟩
  · rw [hr]
  · rw [hr]
  · have hroom := h hzero
    omega

theorem reserve_of_not_hasRoom {limit : Nat} {w : World} (h : ¬ HasRoom limit w) :
    (reserve limit w).1 = .error (.failed .noRoom) := by
  rcases reserve_cases limit w with ⟨hroom, -⟩ | ⟨-, -, hmost, -⟩ | ⟨-, -, -, hr⟩
  · exact absurd (fun hzero => .inl (hroom hzero)) h
  · exact absurd (fun _ => .inr hmost) h
  · rw [hr]

/-- No room can be missing for a limit at which the outermost call is refused. -/
theorem hasRoom_of_le {limit : Nat} {w : World} (h : limit ≤ w.depth) : HasRoom limit w := by
  intro hzero
  obtain rfl : limit = 0 := by omega
  exact .inr (by decide)

/-- From worlds of the given depth the two runs are one, which ends at that depth, is not exhausted
and lowers no recursion limit. -/
def Steady (depth : Nat) {α : Type} (m m' : Run α) : Prop :=
  ∀ w : World, w.depth = depth →
    m w = m' w ∧ (m w).1 ≠ .error .exhausted ∧ (m w).2.depth = depth ∧ w.RoomLe (m w).2

/-! ## Steps -/

section

variable {depth : Nat} {α β : Type}

theorem steady_of_step {m : Run α} (h : ∀ w, (m w).1 ≠ .error .exhausted ∧
    (m w).2.depth = w.depth ∧ (m w).2.room = w.room) : Steady depth m m := by
  rintro w rfl
  obtain ⟨hx, hd, hr⟩ := h w
  exact ⟨rfl, hx, hd, .of_eq hr⟩

theorem steady_bind {m m' : Run α} {f f' : α → Run β} (hm : Steady depth m m')
    (hf : ∀ a, Steady depth (f a) (f' a)) : Steady depth (m >>= f) (m' >>= f') := by
  intro w hw
  obtain ⟨he, hx, hd, hr⟩ := hm w hw
  rw [Run.bind_apply, Run.bind_apply, ← he]
  rcases hmw : m w with ⟨e | a, w'⟩ <;> rw [hmw] at hx hd hr
  · exact ⟨rfl, fun h => hx (by cases h; rfl), hd, hr⟩
  · obtain ⟨he', hx', hd', hr'⟩ := hf a w' hd
    exact ⟨he', hx', hd', hr.trans hr'⟩

theorem steady_pure (a : α) : Steady depth (pure a : Run α) (pure a) :=
  steady_of_step fun _ => ⟨nofun, rfl, rfl⟩

theorem steady_fail (cause : Failure) : Steady depth (Run.fail cause : Run α) (Run.fail cause) :=
  steady_of_step fun _ => ⟨nofun, rfl, rfl⟩

theorem steady_inspect (look : Store → Except Failure α) :
    Steady depth (Run.inspect look) (Run.inspect look) := by
  refine steady_of_step fun w => ?_
  unfold Run.inspect
  cases look w.store <;> exact ⟨nofun, rfl, rfl⟩

theorem steady_create (step : Store → Store × α) :
    Steady depth (Run.create step) (Run.create step) :=
  steady_of_step fun _ => ⟨nofun, rfl, rfl⟩

theorem steady_attempt (step : Store → Except Failure (Store × α)) :
    Steady depth (Run.attempt step) (Run.attempt step) := by
  refine steady_of_step fun w => ?_
  unfold Run.attempt
  cases step w.store <;> exact ⟨nofun, rfl, rfl⟩

theorem steady_endProgram {m m' : Run Value} (h : Steady depth m m') :
    Steady depth (endProgram m) (endProgram m') := by
  intro w hw
  obtain ⟨he, hx, hd, hr⟩ := h w hw
  unfold endProgram
  rw [← he]
  rcases hm : m w with ⟨(v | cause | _) | v, w'⟩ <;> rw [hm] at hx hd hr
  · exact ⟨rfl, nofun, hd, hr⟩
  · exact ⟨rfl, nofun, hd, hr⟩
  · exact absurd rfl hx
  · exact ⟨rfl, nofun, hd, hr⟩

end

theorem steady_congruence (depth : Nat) : Congruence (Steady depth) where
  pure := steady_pure
  bind := steady_bind
  fail _ := steady_fail _
  giveBack _ := steady_of_step fun _ => ⟨nofun, rfl, rfl⟩
  inspect _ := steady_inspect _
  openFrame _ := steady_create _
  bindName _ _ _ := steady_of_step fun _ => ⟨nofun, rfl, rfl⟩
  setProperty _ _ _ := steady_of_step fun _ => ⟨nofun, rfl, rfl⟩
  make _ _ := steady_create _
  endProgram := steady_endProgram

/-! ## Calls -/

theorem steady_native (depth : Nat) (host : Host) (native : Native) (self : Value)
    (args : List Value) :
    Steady depth (native.call host self args) (native.call host self args) := by
  refine steady_bind ?_ fun data => steady_attempt _
  cases native with
  | printLine =>
    exact steady_bind (steady_bind (steady_inspect _) fun _ =>
      steady_of_step fun _ => ⟨nofun, rfl, rfl⟩) fun _ => steady_pure _
  | length =>
    cases args with
    | nil => exact steady_fail _
    | cons v args =>
      unfold Native.result
      exact steady_inspect _
  | text =>
    cases args with
    | nil => exact steady_pure _
    | cons v args =>
      unfold Native.result
      exact steady_inspect _
  | foreign name =>
    unfold Native.result
    exact steady_create _
  | _ =>
    unfold Native.result
    exact steady_inspect _

theorem steady_bindAll (depth : Nat) (scope : Scope) : ∀ (params : List String) (args : List Value),
    Steady depth (bindAll scope params args) (bindAll scope params args)
  | [], _ => steady_pure ()
  | p :: ps, args => by
    refine steady_bind ((steady_congruence depth).declare _ _ _) fun _ => ?_
    exact steady_bindAll depth scope ps args.tail

theorem steady_callScope (depth : Nat) (c : Closure) (args : List Value) :
    Steady depth (callScope c args) (callScope c args) := by
  refine steady_bind (steady_create _) fun scope => ?_
  refine steady_bind (steady_bindAll depth scope c.params args) fun _ => ?_
  exact steady_pure scope

/-- A body runs one level deeper, and the depth comes back. -/
theorem steady_inCall {depth : Nat} {body body' : Run Value} (h : Steady (depth + 1) body body') :
    Steady depth (inCall body) (inCall body') := by
  intro w hw
  obtain ⟨he, hx, hd, hr⟩ := h w.enter (by rw [World.enter, hw])
  unfold inCall
  rw [← he]
  rcases hb : body w.enter with ⟨outcome, w'⟩
  rw [hb] at hx hd hr
  refine ⟨rfl, ?_, ?_, hr.le, hr.most⟩
  · rcases outcome with (v | cause | _) | v
    · nofun
    · cases cause <;> nofun
    · exact absurd rfl hx
    · nofun
  · show w'.depth - 1 = depth
    have hd : w'.depth = depth + 1 := hd
    omega

/-- At the limit a call is refused. -/
theorem callWithin_of_le {limit : Nat} {w : World} (h : limit ≤ w.depth) (inner : Option Applier)
    (name : String) (c : Closure) (args : List Value) :
    callWithin limit inner name c args w = (.error (.failed (.tooDeep name)), w) := by
  show (if limit ≤ w.depth then _ else _ : Run Value) w = _
  rw [if_pos h]
  rfl

/-- Below the limit a call without a budget ends the run. -/
theorem callWithin_none_of_lt {limit : Nat} {w : World} (h : w.depth < limit) (name : String)
    (c : Closure) (args : List Value) :
    callWithin limit none name c args w = (.error .exhausted, w) := by
  show (if limit ≤ w.depth then _ else _ : Run Value) w = _
  rw [if_neg (by omega)]
  rfl

/-- Below the limit a call is made. -/
theorem callWithin_of_lt {limit : Nat} {w : World} (h : w.depth < limit) (apply : Applier)
    (name : String) (c : Closure) (args : List Value) :
    callWithin limit (some apply) name c args w =
      (do Run.note (.calling name args.length)
          let scope ← callScope c args
          inCall (evalBody apply c.body scope .null)) w := by
  show (if limit ≤ w.depth then _ else _ : Run Value) w = _
  rw [if_neg (by omega)]

/-- A call with budgets that both cover the calls the limit still admits.  Below the limit neither
budget is empty, and the body has one call less at hand and one less to make. -/
theorem steady_callWithin {limit depth : Nat} {inner inner' : Option Applier}
    (h : depth < limit → ∃ apply apply', inner = some apply ∧ inner' = some apply' ∧
      ∀ f args self, Steady (depth + 1) (apply f args self) (apply' f args self))
    (name : String) (c : Closure) (args : List Value) :
    Steady depth (callWithin limit inner name c args) (callWithin limit inner' name c args) := by
  intro w hw
  by_cases hd : limit ≤ depth
  · rw [callWithin_of_le (by omega), callWithin_of_le (by omega)]
    exact steady_fail _ w hw
  · obtain ⟨apply, apply', rfl, rfl, ha⟩ := h (by omega)
    rw [callWithin_of_lt (by omega), callWithin_of_lt (by omega)]
    have body : ∀ scope, Steady (depth + 1) (evalBody apply c.body scope .null)
        (evalBody apply' c.body scope .null) := fun scope =>
      (steady_congruence (depth + 1)).evalBody ha c.body scope .null
    have noted : Steady depth (Run.note (.calling name args.length)) (Run.note _) :=
      steady_of_step fun _ => ⟨nofun, rfl, rfl⟩
    refine steady_bind noted (fun _ => ?_) w hw
    refine steady_bind (steady_callScope depth c args) fun scope => ?_
    exact steady_inCall (body scope)

theorem steady_reserve (depth limit : Nat) : Steady depth (reserve limit) (reserve limit) := by
  rintro w rfl
  refine ⟨rfl, fun hx => ?_, (reserve_kept limit w).2.2, reserve_roomLe limit w⟩
  rcases reserve_ends limit w with h | h <;> rw [h] at hx <;> cases hx

theorem steady_callScript {limit depth : Nat} {inner inner' : Option Applier}
    (h : depth < limit → ∃ apply apply', inner = some apply ∧ inner' = some apply' ∧
      ∀ f args self, Steady (depth + 1) (apply f args self) (apply' f args self))
    (name : String) (c : Closure) (args : List Value) :
    Steady depth (callScript limit inner name c args) (callScript limit inner' name c args) :=
  steady_bind (steady_reserve depth limit) fun _ => steady_callWithin h name c args

theorem steady_applyOver {limit depth : Nat} {inner inner' : Option Applier} (host : Host)
    (h : depth < limit → ∃ apply apply', inner = some apply ∧ inner' = some apply' ∧
      ∀ f args self, Steady (depth + 1) (apply f args self) (apply' f args self))
    (f : Value) (args : List Value) (self : Option Value) :
    Steady depth (applyOver host limit inner f args self)
      (applyOver host limit inner' f args self) := by
  refine steady_bind (steady_of_step (m := Run.store) fun _ => ⟨nofun, rfl, rfl⟩) fun s => ?_
  split
  · split
    · split
      · exact steady_native depth host _ _ args
      · exact steady_callScript h _ _ args
    · exact steady_fail _
  · exact steady_fail _

theorem steady_applier (host : Host) (limit : Nat) : ∀ (n n' depth : Nat), limit - depth ≤ n →
    limit - depth ≤ n' → ∀ f args self,
      Steady depth (applier host limit n f args self) (applier host limit n' f args self) := by
  intro n
  induction n with
  | zero =>
    intro n' depth hn _ f args self
    have h : depth < limit → False := by omega
    cases n' with
    | zero => exact steady_applyOver host (fun hd => (h hd).elim) f args self
    | succ n' => exact steady_applyOver host (fun hd => (h hd).elim) f args self
  | succ n ih =>
    intro n' depth hn hn' f args self
    cases n' with
    | zero =>
      have h : depth < limit → False := by omega
      exact steady_applyOver host (fun hd => (h hd).elim) f args self
    | succ n' =>
      refine steady_applyOver host (fun hd => ⟨_, _, rfl, rfl, ?_⟩) f args self
      exact ih n' (depth + 1) (by omega) (by omega)

/-! ## Trees -/

theorem steady_evaluate (depth : Nat) (host : Host) (limit : Nat) (node : Node) (scope : Scope) :
    Steady depth (evaluate host limit node scope) (evaluate host limit node scope) :=
  (steady_congruence depth).eval
    (steady_applier host limit limit limit depth (Nat.sub_le _ _) (Nat.sub_le _ _)) node scope

/-- From every world there is a budget from which on the outcome of a tree is the one of `evaluate`,
and it is a value, a return or a failure. -/
theorem eval_settles (host : Host) (limit : Nat) (node : Node) (scope : Scope) (w : World) :
    ∃ fuel, fuel ≤ limit ∧ ∀ n, fuel ≤ n →
      eval (applier host limit n) node scope w = evaluate host limit node scope w ∧
        (eval (applier host limit n) node scope w).1 ≠ .error .exhausted := by
  refine ⟨limit - w.depth, Nat.sub_le _ _, fun n hn => ?_⟩
  have h := (steady_congruence w.depth).eval
    (steady_applier host limit n limit w.depth hn (Nat.sub_le _ _)) node scope w rfl
  exact ⟨h.1, h.2.1⟩

end Eval

end Guion
