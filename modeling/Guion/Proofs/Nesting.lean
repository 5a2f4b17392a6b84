import Mathlib.Logic.Function.Basic
import Guion.Proofs.History

/-!
# Frames are nested in one another

A scope lists its frames from the innermost outward.  All scopes that a store holds agree on which
frames stand around a frame, and each frame is older than the frames inside it, so every chain ends.
A run adds frames and leaves the nesting of the frames that were there as it was.

    s.Nested around → scope.Within s around →
      ∃ around', (∀ f < s.frames.size, around' f = around f) ∧ s'.Nested around'   (nested_evaluate)
-/

namespace Guion

/-- A scope of the store with the frames that stand around its innermost one. -/
def Scope.Within (scope : Scope) (s : Store) (around : FrameId → List FrameId) : Prop :=
  scope.frame < s.frames.size ∧ scope.outer = around scope.frame

/-- The frames around each frame: none, or an older frame and the frames around that one.  The
scopes of all functions agree with it. -/
structure Store.Nested (s : Store) (around : FrameId → List FrameId) : Prop where
  older : ∀ f, f < s.frames.size → around f = [] ∨ ∃ g, g < f ∧ around f = g :: around g
  scopes : ∀ a c scope, (s.object a).shape = .function c → c.scope = some scope →
    scope.Within s around

namespace Store.Nested

variable {s : Store} {around : FrameId → List FrameId} (h : s.Nested around)
include h

/-- Every chain goes from younger to older frames, so it ends. -/
theorem descends {f : FrameId} (hf : f < s.frames.size) :
    (f :: around f).Pairwise (fun inner outer => outer < inner) := by
  induction f using Nat.strongRecOn with
  | ind f ih =>
    rcases h.older f hf with hnone | ⟨g, hg, hmore⟩
    · rw [hnone]
      exact List.pairwise_singleton _ f
    · rw [hmore]
      have hrest := ih g hg (Nat.lt_trans hg hf)
      refine List.pairwise_cons.2 ⟨List.forall_mem_cons.2 ⟨hg, fun e he => ?_⟩, hrest⟩
      exact Nat.lt_trans ((List.pairwise_cons.1 hrest).1 e he) hg

/-- All frames of a scope exist. -/
theorem lt_of_mem_chain {scope : Scope} (hs : scope.Within s around) {f : FrameId}
    (hf : f ∈ scope.chain) : f < s.frames.size := by
  rw [Scope.chain, hs.2] at hf
  rcases List.mem_cons.1 hf with rfl | hf
  · exact hs.1
  · exact Nat.lt_trans ((List.pairwise_cons.1 (h.descends hs.1)).1 f hf) hs.1

end Store.Nested

/-- A nesting agrees with an earlier one on the frames that were there. -/
structure Outline where
  around : FrameId → List FrameId
  size : Nat

namespace Outline

instance : Preorder Outline where
  le i j := i.size ≤ j.size ∧ ∀ f, f < i.size → j.around f = i.around f
  le_refl i := ⟨Nat.le_refl _, fun _ _ => rfl⟩
  le_trans i j k hij hjk := ⟨Nat.le_trans hij.1 hjk.1, fun f hf =>
    (hjk.2 f (Nat.lt_of_lt_of_le hf hij.1)).trans (hij.2 f hf)⟩

/-- The chains of the outline. -/
def Has (i : Outline) (chain : List FrameId) : Prop :=
  ∀ f fs, chain = f :: fs → f < i.size ∧ fs = i.around f

/-- The outline of a store. -/
def Of (i : Outline) (s : Store) : Prop := s.frames.size = i.size ∧ s.Nested i.around

theorem Has.mono {i j : Outline} (h : i ≤ j) {chain : List FrameId} (hc : i.Has chain) :
    j.Has chain := by
  intro f fs hf
  obtain ⟨hlt, hfs⟩ := hc f fs hf
  exact ⟨Nat.lt_of_lt_of_le hlt h.1, hfs.trans (h.2 f hlt).symm⟩

theorem has_chain_iff {i : Outline} {s : Store} (h : i.Of s) (scope : Scope) :
    i.Has scope.chain ↔ scope.Within s i.around := by
  unfold Has Scope.Within
  rw [h.1]
  refine ⟨fun hc => hc _ _ rfl, ?_⟩
  rintro hs f fs ⟨⟩
  exact hs

/-! ## Operations of the store -/

/-- The outline with a new frame inside the chain. -/
def push (i : Outline) (chain : List FrameId) : Outline :=
  ⟨Function.update i.around i.size chain, i.size + 1⟩

theorem around_push_of_lt (i : Outline) (chain : List FrameId) {f : FrameId} (hf : f < i.size) :
    (i.push chain).around f = i.around f :=
  Function.update_of_ne (Nat.ne_of_lt hf) _ _

theorem around_push_size (i : Outline) (chain : List FrameId) :
    (i.push chain).around i.size = chain :=
  Function.update_self _ _ _

theorem le_push (i : Outline) (chain : List FrameId) : i ≤ i.push chain :=
  ⟨Nat.le_succ _, fun _ => i.around_push_of_lt chain⟩

theorem of_openFrame {i : Outline} {s : Store} (h : i.Of s) {chain : List FrameId}
    (hc : i.Has chain) : (i.push chain).Of (s.openFrame chain).1 := by
  have hsize : (s.openFrame chain).1.frames.size = i.size + 1 := by
    rw [Store.frames_size_openFrame, h.1]
  refine ⟨hsize, fun f hf => ?_, fun a c scope hshape hscope => ?_⟩
  · rw [hsize] at hf
    rcases Nat.lt_succ_iff_lt_or_eq.1 hf with hf | rfl
    · rw [around_push_of_lt i chain hf]
      refine (h.2.older f (h.1 ▸ hf)).imp id ?_
      rintro ⟨g, hg, he⟩
      exact ⟨g, hg, by rw [around_push_of_lt i chain (Nat.lt_trans hg hf), he]⟩
    · rw [around_push_size]
      cases chain with
      | nil => exact .inl rfl
      | cons g gs =>
        obtain ⟨hg, hgs⟩ := hc g gs rfl
        exact .inr ⟨g, hg, by rw [around_push_of_lt i _ hg, hgs]⟩
  · have hw := h.2.scopes a c scope hshape hscope
    have hin := (has_chain_iff h scope).2 hw
    obtain ⟨hlt, houter⟩ := hin.mono (i.le_push chain) _ _ rfl
    exact ⟨hsize ▸ hlt, houter⟩

theorem of_make {i : Outline} {s : Store} (h : i.Of s) {shape : Shape}
    (hs : ∀ c scope, shape = .function c → c.scope = some scope → i.Has scope.chain)
    (entries : List (String × Value)) : i.Of (s.make shape entries).1 := by
  refine ⟨h.1, h.2.older, fun a c scope hshape hscope => ?_⟩
  rw [Store.object_make] at hshape
  split at hshape
  · exact (has_chain_iff h scope).1 (hs c scope hshape hscope)
  · exact h.2.scopes a c scope hshape hscope

theorem of_bindName {i : Outline} {s : Store} (h : i.Of s) (f : FrameId) (name : String)
    (b : Binding) : i.Of (s.bindName f name b) := by
  have hsize := s.frames_size_bindName f name b
  refine ⟨hsize.trans h.1, fun g hg => h.2.older g (hsize ▸ hg), fun a c scope hshape hscope => ?_⟩
  obtain ⟨hlt, houter⟩ := h.2.scopes a c scope hshape hscope
  exact ⟨hsize.symm ▸ hlt, houter⟩

theorem of_noteGlobal {i : Outline} {s : Store} (h : i.Of s) (scope : Scope) (name : String) :
    i.Of (s.noteGlobal scope name) := by
  have hsize := s.frames_size_noteGlobal scope name
  refine ⟨hsize.trans h.1, fun g hg => h.2.older g (hsize ▸ hg), fun a c around hshape hscope => ?_⟩
  obtain ⟨hlt, houter⟩ := h.2.scopes a c around hshape hscope
  exact ⟨hsize.symm ▸ hlt, houter⟩

theorem of_setProperty {i : Outline} {s : Store} (h : i.Of s) (a : Address) (key : String)
    (v : Value) : i.Of (s.setProperty a key v) := by
  refine ⟨h.1, h.2.older, fun b c scope hshape hscope => ?_⟩
  rw [Store.shape_setProperty] at hshape
  exact h.2.scopes b c scope hshape hscope

end Outline

/-! ## Runs -/

namespace Eval

/-- A function keeps the chain in which it was made. -/
theorem has_of_closure {i : Outline} {c : Closure} (h : i.Has c.chain) {scope : Scope}
    (hs : c.scope = some scope) : i.Has scope.chain :=
  Closure.chain_of_scope hs ▸ h

/-- Nesting is an invariant. -/
def nesting {host : Host} {admits : Native → Prop} (hhost : host.ReadOnly admits) :
    Invariant host Outline where
  Holds i w := i.Of w.store ∧ w.store.Admits admits
  Knows _ _ := True
  Covers i chain := i.Has chain
  Admits := admits
  knows_mono _ _ := trivial
  covers_mono h hc := hc.mono h
  covers_nil _ := nofun
  quiet h hs _ := hs ▸ h
  openFrame := by
    intro i w outer ⟨h, hadmits⟩ hc
    refine ⟨i.push outer, i.le_push outer, ⟨Outline.of_openFrame h hc, hadmits⟩, ?_⟩
    rintro f fs ⟨⟩
    rw [h.1]
    exact ⟨Nat.lt_succ_self _, (i.around_push_size outer).symm⟩
  bindName h _ _ _ _ := ⟨Outline.of_bindName h.1 _ _ _, h.2⟩
  make := by
    intro i w shape entries ⟨h, hadmits⟩ hs _
    refine ⟨i, le_rfl, ⟨Outline.of_make h (fun c scope hshape _ => ?_) entries, ?_⟩, trivial⟩
    · exact absurd hshape (Shape.ne_function hs c)
    · exact hadmits.make (fun c hc => absurd hc (Shape.ne_function hs c)) entries
  makeFunction := by
    intro i w c name ⟨h, hadmits⟩ hc hn
    refine ⟨i, le_rfl, ⟨Outline.of_make h ?_ _, hadmits.make ?_ _⟩, trivial⟩
    · rintro _ scope ⟨⟩ hscope
      exact has_of_closure hc hscope
    · rintro _ ⟨⟩
      exact hn
  setProperty key h _ _ := ⟨Outline.of_setProperty h.1 _ key _, h.2.setProperty _ key _⟩
  binding _ _ _ _ := Value.known_any _
  property _ _ _ := Value.known_any _
  closure := by
    intro i w a c ⟨h, hadmits⟩ _ hshape
    refine ⟨?_, hadmits a c hshape⟩
    cases hscope : c.scope with
    | none =>
      rw [Closure.chain, hscope]
      exact nofun
    | some scope =>
      rw [Closure.chain_of_scope hscope]
      exact (Outline.has_chain_iff h scope).2 (h.2.scopes a c scope hshape hscope)
  foreign := by
    intro i w name self args h ha _ _
    obtain ⟨hstore, hdata⟩ := hhost.native w.store self args ha
    rw [hstore]
    exact ⟨i, le_rfl, h, hdata⟩
  dataFunction _ ha hplain := hhost.dataFunction ha hplain

theorem nested_evaluate {host : Host} {admits : Native → Prop} (hhost : host.ReadOnly admits)
    (limit : Nat) (node : Node) {scope : Scope} {w : World} (hw : w.store.Admits admits)
    {around : FrameId → List FrameId} (h : w.store.Nested around)
    (hs : scope.Within w.store around) :
    ∃ around', (∀ f, f < w.store.frames.size → around' f = around f) ∧
      (evaluate host limit node scope w).2.store.Nested around' := by
  have hof : Outline.Of ⟨around, w.store.frames.size⟩ w.store := ⟨rfl, h⟩
  have hin := (Outline.has_chain_iff hof scope).2 hs
  have hkeeps := (nesting hhost).keeps_evaluate (i := ⟨around, w.store.frames.size⟩) limit node
    scope hin
  obtain ⟨k, hle, hk, -⟩ := hkeeps _ w le_rfl ⟨hof, hw⟩
  exact ⟨k.around, hle.2, hk.1.2⟩

theorem nesting_founds (host : Host) : (nesting host.readOnly_isOwn).Founds where
  own h := h
  declareGlobal h _ _ _ := ⟨Outline.of_noteGlobal (Outline.of_bindName h.1 _ _ _) _ _, h.2⟩

end Eval

/-- The frames of all sessions, and of all functions that they have made, are nested. -/
theorem Session.History.nested {host : Host} {sessions : List Session} {w : World}
    (h : History host sessions w) : ∃ around, w.store.Nested around ∧
      ∀ session ∈ sessions, session.scope.Within w.store around := by
  have h₀ (room : Int) :
      (Eval.nesting host.readOnly_isOwn).Holds ⟨fun _ => [], 0⟩ (.initial room) := by
    refine ⟨⟨rfl, nofun, fun a c scope hshape hscope => ?_⟩, Store.admits_initial⟩
    obtain ⟨native, -, rfl⟩ := Store.exists_of_function_initial hshape
    cases hscope
  obtain ⟨i, hi, hs⟩ := h.holds (Eval.nesting_founds host) h₀
  refine ⟨i.around, hi.1.2, fun session hm => ?_⟩
  exact (Outline.has_chain_iff hi.1 _).1 (hs session hm)

end Guion
