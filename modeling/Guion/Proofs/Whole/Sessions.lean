import Guion.Proofs.Safety.Sessions
import Guion.Proofs.Whole.Trees

/-!
# Sessions without division compute in integers

A session divides only if the sign of division is written in one of its scripts or in its prelude.
In the worlds that sessions lead to in which it is not, every number is an integer, and no script
fails because a number is out of range.  The other operators give the sum, the difference, the
product and the remainder of integers without any rounding.  What is left is a limit for which the
host cannot make room: below it no script fails because a number is too large.

    Writes ts s → '/' ∉ s.toList → ∀ t ∈ ts, t.text ≠ "/"                  (Writes.ne_division)
    Undivided host sessions w → w.store.Whole                                (Undivided.whole)
    … → (session.eval host limit code w).1 = .ok v → v.Whole               (whole_of_undivided)
    … → (session.eval host limit code w).1 ≠ .error (.failed (.numeric .outOfRange))
    … → roomFor limit ≤ mostRoom → (session.eval host limit code w).1 ≠ .error (.failed .noRoom)
-/

namespace Guion

/-! ## Scripts -/

namespace Token

/-- The characters of a token stand in the text. -/
theorem Layout.mem_of_mem_text {ts : List Token} {cs : List Char} (h : Layout ts cs) :
    ∀ t ∈ ts, ∀ c ∈ t.text.toList, c ∈ cs := by
  induction h with
  | nil => exact List.forall_mem_nil _
  | blank _ _ ih => exact fun t ht c hc => List.mem_cons_of_mem _ (ih t ht c hc)
  | number _ _ _ ih =>
    refine List.forall_mem_cons.2 ⟨fun c hc => ?_, fun t ht c hc => ?_⟩
    · rw [String.toList_ofList] at hc
      exact List.mem_append_left _ hc
    · exact List.mem_append_right _ (ih t ht c hc)
  | word _ _ _ ih =>
    refine List.forall_mem_cons.2 ⟨fun c hc => ?_, fun t ht c hc => ?_⟩
    · rw [ofWord, String.toList_ofList] at hc
      exact List.mem_append_left _ hc
    · exact List.mem_append_right _ (ih t ht c hc)
  | single _ _ ih =>
    refine List.forall_mem_cons.2 ⟨fun c hc => ?_, fun t ht c hc => ?_⟩
    · rw [Char.toString, String.toList_singleton] at hc
      exact List.mem_singleton.1 hc ▸ List.mem_cons_self
    · exact List.mem_cons_of_mem _ (ih t ht c hc)

end Token

theorem Node.Writes.ne_division {ts : List Token} {s : String} (h : Node.Writes ts s)
    (hs : '/' ∉ s.toList) : ∀ t ∈ ts, t.text ≠ "/" := by
  intro t ht htext
  refine hs (Token.Layout.mem_of_mem_text h t ht '/' ?_)
  rw [htext]
  exact List.mem_singleton_self _

namespace Session

theorem undivided_of_parse {code : String} (hcode : '/' ∉ code.toList) {w : World}
    {body : List Node} (h : (parse code w).1 = .ok body) : Node.Undivided body := by
  obtain ⟨ts, hwrites, hderives⟩ := (parse_eq_ok_iff code w body).1 h
  exact ⟨fits_of_parse h, hderives.not_mem_symbolsIn (hwrites.ne_division hcode)⟩

theorem exact_parse {fits : Prop} {code : String} (hcode : '/' ∉ code.toList) :
    Exact fits Node.Undivided (parse code) := by
  intro w hw
  refine ⟨?_, (parse_store code w).symm ▸ hw⟩
  cases h : (parse code w).1 with
  | ok body => exact .value (undivided_of_parse hcode h)
  | error e =>
    rw [parse_fst] at h
    split at h
    · cases h
      exact .failed trivial
    · split at h <;> cases h
      exact .failed trivial

variable (host : Host) (limit : Nat) (session : Session)

theorem exact_load {code : String} (hcode : '/' ∉ code.toList) :
    Exact (roomFor limit ≤ mostRoom) (fun _ => True) (session.load host limit code) := by
  refine exact_bind (exact_parse hcode) fun body hb => ?_
  refine exact_bind (Eval.exact_program host limit hb session.scope) fun _ _ => ?_
  exact exact_pure trivial

theorem exact_eval {code : String} (hcode : '/' ∉ code.toList) :
    Exact (roomFor limit ≤ mostRoom) Value.Whole (session.eval host limit code) := by
  refine exact_bind (exact_parse hcode) fun body hb => ?_
  refine exact_bind (exact_note _) fun _ _ => ?_
  exact Eval.exact_program host limit hb session.scope

theorem exact_loadScripts {scripts : List Prelude.Script}
    (h : ∀ script ∈ scripts, ∀ code ∈ script.code, '/' ∉ code.toList) :
    Exact (roomFor limit ≤ mostRoom) (fun _ => True)
      (session.loadScripts host limit scripts) := by
  induction scripts with
  | nil => exact exact_pure trivial
  | cons script rest ih =>
    obtain ⟨hs, hrest⟩ := List.forall_mem_cons.1 h
    refine exact_bind (exact_note _) fun _ _ => ?_
    split
    · next code hcode =>
      exact exact_bind (exact_load host limit session (hs code hcode)) fun _ _ => ih hrest
    · exact exact_fail trivial

end Session

/-! ## Starting a session -/

namespace Builtin

theorem whole_constants : ∀ e ∈ constants, e.2.Whole :=
  List.forall_mem_cons.2 ⟨Value.whole_bool _, List.forall_mem_cons.2 ⟨Value.whole_bool _,
    List.forall_mem_singleton.2 Value.whole_null⟩⟩

section

variable {fits : Prop}

theorem exact_declareName (scope : Scope) (name : String) {v : Value} (hv : v.Whole)
    (constant isGlobal : Bool) :
    Exact fits Value.Whole (declareName scope name v constant isGlobal) := by
  refine exact_bind (Eval.exact_declare scope name hv) fun _ _ => ?_
  split
  · refine exact_bind (exact_update fun _ hs => hs.noteGlobal scope name) fun _ _ => ?_
    refine exact_bind (exact_note _) fun _ _ => ?_
    exact exact_pure hv
  · exact exact_pure hv

theorem exact_declareAll (scope : Scope) (constant : Bool) {entries : List (String × Value)}
    (h : ∀ e ∈ entries, e.2.Whole) :
    Exact fits (fun _ => True) (declareAll scope constant entries) := by
  induction entries with
  | nil => exact exact_pure trivial
  | cons e rest ih =>
    obtain ⟨hv, hrest⟩ := List.forall_mem_cons.1 h
    exact exact_bind (exact_declareName scope e.1 hv constant true) fun _ _ => ih hrest

theorem exact_makeFunctions {natives : List (String × Native)}
    (h : ∀ e ∈ natives, e.2.isOwn = true) :
    Exact fits (fun made => ∀ e ∈ made, e.2.Whole) (makeFunctions natives) := by
  induction natives with
  | nil => exact exact_pure (List.forall_mem_nil _)
  | cons e rest ih =>
    obtain ⟨hn, hrest⟩ := List.forall_mem_cons.1 h
    have hmake (s : Store) (hs : s.Whole) :=
      hs.makeFunction (Shape.whole_native hn) e.1
    refine exact_bind (exact_create fun s hs => ⟨hmake s hs, Value.whole_ref _⟩) fun f hf => ?_
    refine exact_bind (ih hrest) fun made hmade => ?_
    exact exact_pure (List.forall_mem_cons.2 ⟨hf, hmade⟩)

theorem exact_register (scope : Scope) : Exact fits (fun _ => True) (register scope) := by
  refine exact_bind (exact_makeFunctions isOwn_functions) fun made hmade => ?_
  refine exact_bind (exact_bind (exact_declareAll scope false hmade) fun _ _ =>
    exact_declareAll scope true whole_constants) fun _ _ => ?_
  exact exact_ofStore fun s _ => exact_note _

end

end Builtin

namespace Session

/-- The sign of division is not written in the prelude. -/
def NoDivision (settings : Settings) (files : Files) : PreludeChoice → Prop
  | .none => True
  | .code text => '/' ∉ text.toList
  | .folder => ∀ scripts, Prelude.scripts? files (Prelude.root settings files) = some scripts →
      ∀ script ∈ scripts, ∀ code ∈ script.code, '/' ∉ code.toList

set_option maxRecDepth 2000 in
theorem not_mem_builtin : '/' ∉ Prelude.builtin.toList := by
  -- the characters of a literal are at hand, while those of a text have to be decoded
  have hchars : Prelude.builtin.toList = _ := String.toList_ofList
  rw [hchars]
  decide +kernel

theorem noDivision_of_root_builtin {settings : Settings} {files : Files}
    (h : Prelude.root settings files = .builtin) : NoDivision settings files .folder := by
  intro scripts hs
  rw [h] at hs
  cases hs
  refine List.forall_mem_singleton.2 ?_
  rintro _ ⟨⟩
  exact not_mem_builtin

theorem exact_globalScope {fits : Prop} : Exact fits (fun _ => True) globalScope := by
  have hopen : Exact fits (fun _ => True) (Run.create fun s => s.openFrame []) :=
    exact_create fun _ hs => ⟨hs.openFrame [], trivial⟩
  refine exact_bind hopen fun frame _ => ?_
  refine exact_bind (Builtin.exact_register _) fun _ _ => ?_
  exact exact_pure trivial

theorem exact_start (host : Host) (settings : Settings) (files : Files) {prelude : PreludeChoice}
    (h : NoDivision settings files prelude) :
    Exact (roomFor settings.depthLimit ≤ mostRoom) (fun _ => True)
      (start host settings files prelude) := by
  refine exact_bind exact_globalScope fun scope _ => ?_
  cases prelude with
  | none => exact exact_pure trivial
  | code text =>
    dsimp only
    split
    · exact exact_pure trivial
    · refine exact_bind (exact_load host settings.depthLimit ⟨scope⟩ h) fun _ _ => ?_
      exact exact_pure trivial
  | folder =>
    dsimp only
    split
    · next scripts hs =>
      have hscripts := exact_loadScripts host settings.depthLimit ⟨scope⟩ (h scripts hs)
      exact exact_bind hscripts fun _ _ => exact_pure trivial
    · exact exact_bind (exact_note _) fun _ _ => exact_pure trivial

/-! ## Runs of sessions -/

/-- The worlds that sessions without division lead to, with the sessions that were started in them.
Every script runs under a limit of its own; what a script that fails has done is kept. -/
inductive Undivided (host : Host) : List Session → World → Prop
  | initial (room : Int) : Undivided host [] (.initial room)
  | start {sessions : List Session} {w : World} {settings : Settings} {files : Files}
      {prelude : PreludeChoice} : Undivided host sessions w →
      NoDivision settings files prelude →
      Undivided host ((start host settings files prelude w).1.toOption.toList ++ sessions)
        (start host settings files prelude w).2
  | load {sessions : List Session} {w : World} {session : Session} (limit : Nat) {code : String} :
      Undivided host sessions w → session ∈ sessions → '/' ∉ code.toList →
      Undivided host sessions (session.load host limit code w).2
  | eval {sessions : List Session} {w : World} {session : Session} (limit : Nat) {code : String} :
      Undivided host sessions w → session ∈ sessions → '/' ∉ code.toList →
      Undivided host sessions (session.eval host limit code w).2

theorem Undivided.whole {host : Host} {sessions : List Session} {w : World}
    (h : Undivided host sessions w) : w.store.Whole := by
  induction h with
  | initial room => exact Store.whole_initial
  | start _ hprelude ih => exact (exact_start host _ _ hprelude _ ih).2
  | load limit _ _ hcode ih => exact (exact_load host limit _ hcode _ ih).2
  | eval limit _ _ hcode ih => exact (exact_eval host limit _ hcode _ ih).2

end Session

/-! ## Arithmetic -/

namespace Operator

/-- The arithmetic operators give the exact integers; a remainder lies between zero and the divisor
and differs from the dividend by a multiple of the divisor. -/
structure ExactOn (s : Store) (i j : Int) : Prop where
  sum : apply s "+" (.num (.int i)) (.num (.int j)) = .ok (.num (.int (i + j)))
  difference : apply s "-" (.num (.int i)) (.num (.int j)) = .ok (.num (.int (i - j)))
  product : apply s "*" (.num (.int i)) (.num (.int j)) = .ok (.num (.int (i * j)))
  remainder : j ≠ 0 → ∃ r : Int, apply s "%" (.num (.int i)) (.num (.int j)) = .ok (.num (.int r)) ∧
    j ∣ i - r ∧ (r = 0 ∨ r.sign = j.sign) ∧ r.natAbs < j.natAbs

/-- The remainder of a division that rounds down is on the side of the divisor. -/
theorem fmod_between (i : Int) {j : Int} (hj : j ≠ 0) :
    (0 ≤ i.fmod j ∧ i.fmod j < j) ∨ (j < i.fmod j ∧ i.fmod j ≤ 0) := by
  rcases Int.lt_or_gt_of_ne hj with hneg | hpos
  · have hpos : 0 < -j := by omega
    have hnonneg := Int.fmod_nonneg_of_pos (-i) hpos
    have hlt := Int.fmod_lt_of_pos (-i) hpos
    rw [Int.neg_fmod_neg] at hnonneg hlt
    omega
  · exact .inl ⟨Int.fmod_nonneg_of_pos i hpos, Int.fmod_lt_of_pos i hpos⟩

theorem sign_fmod (i : Int) {j : Int} (hj : j ≠ 0) :
    i.fmod j = 0 ∨ (i.fmod j).sign = j.sign := by
  by_cases hzero : i.fmod j = 0
  · exact .inl hzero
  · right
    rcases fmod_between i hj with ⟨hnonneg, hlt⟩ | ⟨hlt, hnonpos⟩
    · rw [Int.sign_eq_one_of_pos (by omega), Int.sign_eq_one_of_pos (by omega)]
    · rw [Int.sign_eq_neg_one_of_neg (by omega), Int.sign_eq_neg_one_of_neg (by omega)]

theorem exactOn (s : Store) (i j : Int) : ExactOn s i j where
  sum := rfl
  difference := rfl
  product := rfl
  remainder hj := by
    have hmodulo : Num.modulo (.int i) (.int j) = .ok (.int (i.fmod j)) :=
      if_neg (by simpa [Num.isZero] using hj)
    have hlt : (i.fmod j).natAbs < j.natAbs := by
      have hbetween := fmod_between i hj
      omega
    refine ⟨i.fmod j, ?_, Int.dvd_self_sub_fmod, sign_fmod i hj, hlt⟩
    show onNumbers s "%" Num.modulo (.num (.int i)) (.num (.int j)) = _
    rw [onNumbers, hmodulo]
    rfl

end Operator

/-! ## Sessions -/

section

variable {fits : Prop} {α : Type} {P : α → Prop} {x : Except Exit α}

/-- No number out of range ends an exact run. -/
theorem EndsExactly.ne_outOfRange (h : EndsExactly fits P x) :
    x ≠ .error (.failed (.numeric .outOfRange)) := by
  rintro rfl
  cases h with
  | failed hrange => exact hrange

theorem EndsExactly.ne_noRoom (h : EndsExactly fits P x) (hfits : fits) :
    x ≠ .error (.failed .noRoom) := by
  rintro rfl
  cases h with
  | failed hrange => exact hrange
  | noRoom hnot => exact hnot hfits

theorem EndsExactly.of_eq_ok (h : EndsExactly fits P x) {a : α} (hx : x = .ok a) : P a := by
  subst hx
  cases h with
  | value ha => exact ha

end

namespace Session

/-- In the worlds that sessions without division lead to every number in a binding or a property is
an integer.  Every further script without division gives a whole value and does not fail because a
number is out of range, nor does a further session; they may find no room for their calls only under
a limit that needs a higher recursion limit than the host has.  The arithmetic is that of the
integers. -/
theorem whole_of_undivided {host : Host} {sessions : List Session} {w : World}
    (h : Undivided host sessions w) :
    w.store.Whole ∧
    (∀ session ∈ sessions, ∀ (limit : Nat) (code : String), '/' ∉ code.toList →
      (∀ v, (session.eval host limit code w).1 = .ok v → v.Whole) ∧
      (session.eval host limit code w).1 ≠ .error (.failed (.numeric .outOfRange)) ∧
      (session.load host limit code w).1 ≠ .error (.failed (.numeric .outOfRange)) ∧
      (roomFor limit ≤ mostRoom →
        (session.eval host limit code w).1 ≠ .error (.failed .noRoom) ∧
        (session.load host limit code w).1 ≠ .error (.failed .noRoom))) ∧
    (∀ settings files prelude, NoDivision settings files prelude →
      (start host settings files prelude w).1 ≠ .error (.failed (.numeric .outOfRange)) ∧
      (roomFor settings.depthLimit ≤ mostRoom →
        (start host settings files prelude w).1 ≠ .error (.failed .noRoom))) ∧
    ∀ (s : Store) (i j : Int), Operator.ExactOn s i j := by
  refine ⟨h.whole, fun session _ limit code hcode => ?_, fun settings files prelude hprelude => ?_,
    Operator.exactOn⟩
  · have heval := (exact_eval host limit session hcode w h.whole).1
    have hload := (exact_load host limit session hcode w h.whole).1
    exact ⟨fun v hv => heval.of_eq_ok hv, heval.ne_outOfRange, hload.ne_outOfRange,
      fun hroom => ⟨heval.ne_noRoom hroom, hload.ne_noRoom hroom⟩⟩
  · have hstart := (exact_start host settings files hprelude w h.whole).1
    exact ⟨hstart.ne_outOfRange, hstart.ne_noRoom⟩

/-- A session that takes squares modulo seven, and one that is started beside it with the built-in
prelude. -/
theorem whole_of_undivided_squares :
    ∃ w, Undivided silent [⟨⟨0, []⟩⟩] w ∧ w.store.Whole ∧
      (∀ v, (eval silent 10 ⟨⟨0, []⟩⟩ "f(3) - 8" w).1 = .ok v → v.Whole) ∧
      (eval silent 10 ⟨⟨0, []⟩⟩ "f(3) - 8" w).1 ≠ .error (.failed .noRoom) ∧
      (start silent ⟨none, none, none⟩ .empty .folder w).1 ≠
        .error (.failed (.numeric .outOfRange)) := by
  have hs : (start silent ⟨none, none, none⟩ .empty .none (.initial 1000)).1.toOption =
      some ⟨⟨0, []⟩⟩ := by decide +kernel
  have hnone : NoDivision ⟨none, none, none⟩ .empty .none := trivial
  obtain ⟨w, hstart⟩ : ∃ w, Undivided silent [⟨⟨0, []⟩⟩] w := by
    have h := (Undivided.initial 1000 : Undivided silent [] (.initial 1000)).start hnone
    rw [hs] at h
    exact ⟨_, h⟩
  have hmem : (⟨⟨0, []⟩⟩ : Session) ∈ [(⟨⟨0, []⟩⟩ : Session)] := List.mem_cons_self
  have hcode : '/' ∉ "funcion f(x) \x7bretorna x * x % 7;\x7d".toList := by decide
  have hload := hstart.load 10 hmem hcode
  obtain ⟨hwhole, hscripts, hsessions, -⟩ := whole_of_undivided hload
  obtain ⟨hvalue, -, -, hroom⟩ := hscripts _ hmem 10 "f(3) - 8" (by decide)
  exact ⟨_, hload, hwhole, hvalue, (hroom (by decide)).1,
    (hsessions _ _ _ (noDivision_of_root_builtin rfl)).1⟩

/-- A limit for which no host can be set ends a script without division in its first call. -/
theorem undivided_beyond_mostRoom :
    '/' ∉ "funcion f() \x7bretorna 1;\x7d f()".toList ∧
      (eval silent 200000000 ⟨⟨0, []⟩⟩ "funcion f() \x7bretorna 1;\x7d f()"
        (start silent ⟨none, none, none⟩ .empty .none (.initial 1000)).2).1 =
          .error (.failed .noRoom) := by
  constructor
  · decide
  · decide +kernel

end Session

end Guion
