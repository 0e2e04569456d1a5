/-
  Who receives an event. The right to listen is checked once, when a pattern is registered and on
  the text of the pattern without its `*`; an event is delivered to every object that owns a
  matching pattern.
-/
import IotLib.Ubus.Graph

namespace Ubus

/-! ## Deliveries -/

/-- The text of every registered pattern is empty, or the owner of its object
    was allowed to listen to it. -/
def PatternsOk (acls : Acls) (g : Graph) : Prop :=
  ∀ e ∈ g.patterns, ∃ c, (g.obj (g.ev e).obj).client = some c ∧
    ((g.ev e).key = [] ∨ g.allowed acls (some c) (some (g.ev e).key) .listen = true)

section
variable {acls : Acls} {F : Ptr → Prop} {x y : Option Ptr} {g g' : Graph}

theorem PatternsOk.congr (h : PatternsOk acls g) (hi : Inv x g)
    (hpat : ∀ e ∈ g'.patterns, e ∈ g.patterns ∧ g'.ev e = g.ev e)
    (hcl : ∀ o ∈ g.objects, ∀ c, (g.obj o).client = some c → (g'.obj o).client = some c)
    (hcred : ∀ c ∈ g.connected, (g'.cli c).cred = (g.cli c).cred) : PatternsOk acls g' := by
  intro e he
  obtain ⟨he, hev⟩ := hpat e he
  obtain ⟨c, hc, hkey⟩ := h e he
  have ho := (hi.ev.owner e he).1
  have hcon := (hi.own.owner _ ho c hc).1
  refine ⟨c, by rw [hev]; exact hcl _ ho c hc, ?_⟩
  rw [hev]
  refine hkey.imp id fun hall => ?_
  rw [← hall]
  simp only [Graph.allowed, Option.map_some, hcred c hcon]

theorem PatternsOk.step (hs : GStep acls F x g y g') (hi : Inv x g) (h : PatternsOk acls g) :
    PatternsOk acls g' := by
  have hsame : ∀ e ∈ g.patterns, e ∈ g.patterns ∧ g.ev e = g.ev e := fun e he => ⟨he, rfl⟩
  cases hs with
  | next => exact h
  | addSub =>
    exact h.congr hi hsame (fun o _ c hc => by rw [addSub_obj]; exact hc) fun _ _ => rfl
  | delSub p =>
    exact h.congr hi hsame (fun o _ c hc => by rw [delSub_obj]; exact hc) fun _ _ => rfl
  | @addEvent _ _ o c key part ho hc hall =>
    intro e he
    have hobj : ∀ y, (({ g with next := g.next + 1 }.addEvent g.next o key part).obj y).client =
        (g.obj y).client := fun y => by rw [addEvent_obj]
    rw [addEvent_ev]
    rcases (mem_addEvent_patterns _ _ _ _ _ e).1 he with rfl | he
    · rw [if_pos rfl]
      exact ⟨c, (hobj o).trans hc, hall⟩
    · have hne : e ≠ g.next := fun heq => absurd (hi.ev.fresh e he) (heq ▸ Nat.lt_irrefl _)
      rw [if_neg hne]
      obtain ⟨c', hc', hkey⟩ := h e he
      exact ⟨c', (hobj _).trans hc', hkey⟩
  | delEvent e =>
    exact h.congr hi (fun e' he' => ⟨List.mem_of_mem_erase he', rfl⟩)
      (fun o _ c hc => by rw [delEvent_obj]; exact hc) fun _ _ => rfl
  | newType | setMethods | getType =>
    exact h.congr hi hsame (fun _ _ _ hc => hc) fun _ _ => rfl
  | unref =>
    rename_i t
    rw [ubusUnrefObjectType_keeps]
    exact h.congr hi hsame (fun _ _ _ hc => hc) fun _ _ => rfl
  | @newObj _ _ id hid =>
    have hnew : g.next ∉ g.objects := fun hm => absurd (hi.obj.fresh _ hm) (Nat.lt_irrefl _)
    rw [refType_keeps]
    refine h.congr hi hsame (fun o ho c hc => ?_) fun _ _ => rfl
    show (({ g with next := g.next + 1 }.newObj g.next id x).obj o).client = some c
    rwa [newObj_obj id x (show o ≠ g.next from fun he => hnew (he ▸ ho))]
  | @insertPath _ _ _ o path ho hk hg =>
    obtain ⟨-, rfl⟩ := insertPath_eq hg
    refine h.congr hi hsame (fun y _ c hc => ?_) fun _ _ => rfl
    exact (modObj_proj g o (f := fun x => { x with pathKey := some path }) (π := Object.client)
      (fun _ => rfl) y).trans hc
  | @giveTo _ _ o c ho hn hc =>
    refine h.congr hi hsame (fun y _ d hd => ?_) fun d _ => ?_
    · rw [own_obj]
      split_ifs with hy
      · rw [hy, hn] at hd
        cases hd
      · exact hd
    · simp only [Graph.own, Graph.modObj, Function.update_apply]
      split_ifs with hd
      · rw [hd]
      · rfl
  | unregister => exact h.congr hi hsame (fun _ _ _ hc => hc) fun _ _ => rfl
  | newClient id cred clients _ =>
    refine h.congr hi hsame (fun _ _ _ hc => hc) fun c hc => ?_
    show (Function.update g.cli g.next _ c).cred = _
    rw [Function.update_of_ne (hi.own.fresh c hc).ne]
  | delClient => exact h.congr hi hsame (fun _ _ _ hc => hc) fun _ _ => rfl

end

/-! ## Soundness -/

/-- Two clients: root, and one that registers a pattern for its object 5000. -/
def listenSteps (pattern : Str) : List Step :=
  [⟨.connect (some ⟨0, 0, [], []⟩), [], [2000]⟩,
    ⟨.connect (some ⟨1000, 1000, [117], [117]⟩), [], [2001]⟩,
    ⟨.message 4 (.addObject {}), [], [5000]⟩,
    ⟨.message 4 (.register ⟨some 5000, some pattern, 0⟩), [], []⟩]

end Ubus
