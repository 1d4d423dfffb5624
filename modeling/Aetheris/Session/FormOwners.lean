import Aetheris.Html.TreeBuilder
import Aetheris.Library.Runs
import Aetheris.Session.FormDiscovery

/-!
# Form owners

The list of forms is cut back at the end of a form only, and the form itself stays on it.  So a
control is given to the last form in the list, whether that is still open or not.  What holds of a
control and its owner when it is found holds at the end, and then the last form that began is
compared with the nearest one around.
-/

namespace Aetheris.Session

open Dom Ancestry

/-! ## The walk -/

section Walk

variable {h : Heap} (hf : h.Forest) {order : List NodeId} (horder : order.Nodup)
  (top : List NodeId) {R : FormControlState → Option ℕ → Prop}
  (hR : ∀ id control marks around before after, order = before ++ id :: after →
    controlAt h id = some control →
      Marks.Standing top (nearest hf.wf (isForm h)) marks around (before.filter (isForm h)) →
        nearest hf.wf (isForm h) id = around.getLast? → R control (Marks.lastPlace marks))

include horder hR

/-- **What holds of a control and its owner when it is found** holds of all at the end. -/
theorem forall₂_discover (depth : ℕ) (id : NodeId) (runtime : FormRuntime)
    (around before after : List NodeId) (heq : order = before ++ walked h depth id ++ after)
    (hnearest : nearest hf.wf (isForm h) id = around.getLast?)
    (hstanding : Marks.Standing top (nearest hf.wf (isForm h)) runtime.forms around
      (before.filter (isForm h)))
    (hbegins : around = [] → runtime.forms ++ outerForms h depth id <+: top)
    (hruntime : List.Forall₂ R runtime.controls runtime.controlForms) :
    List.Forall₂ R (discover h depth runtime id).controls
      (discover h depth runtime id).controlForms := by
  induction depth generalizing id runtime around before after with
  | zero => exact hruntime
  | succ depth ih =>
    have hchildren (cs : List NodeId) (r : FormRuntime) (around before after : List NodeId)
        (heq : order = before ++ cs.flatMap (walked h depth) ++ after)
        (hnearest : ∀ c ∈ cs, nearest hf.wf (isForm h) c = around.getLast?)
        (hstanding : Marks.Standing top (nearest hf.wf (isForm h)) r.forms around
          (before.filter (isForm h)))
        (hbegins : around = [] → r.forms ++ cs.flatMap (outerForms h depth) <+: top)
        (hr : List.Forall₂ R r.controls r.controlForms) :
        List.Forall₂ R (cs.foldl (discover h depth) r).controls
          (cs.foldl (discover h depth) r).controlForms := by
      induction cs generalizing r before with
      | nil => exact hr
      | cons c cs ihcs =>
        have hfirst : order = before ++ walked h depth c ++ (cs.flatMap (walked h depth) ++ after) := by
          rw [heq, List.flatMap_cons]
          simp only [List.append_assoc]
        have hrest : order = before ++ walked h depth c ++ cs.flatMap (walked h depth) ++ after := by
          rw [hfirst, List.append_assoc (before ++ walked h depth c)]
        rw [List.flatMap_cons, ← List.append_assoc] at hbegins
        have hbegins' : around = [] → r.forms ++ outerForms h depth c <+: top :=
          fun haround => (List.prefix_append _ _).trans (hbegins haround)
        have hc := ih c r around before _ hfirst (hnearest c List.mem_cons_self) hstanding hbegins'
          hr
        rw [List.foldl_cons]
        refine ihcs _ (before ++ walked h depth c) hrest
          (fun d hd => hnearest d (List.mem_cons_of_mem _ hd)) ?_ ?_ hc
        · rw [forms_discover, List.filter_append]
          refine hstanding.pass (outerForms_eq_nil_iff depth c) (fun f hf hbegun => ?_) hbegins'
          rw [hfirst, List.append_assoc, List.nodup_append] at horder
          exact horder.2.2 f (List.mem_of_mem_filter hbegun) f
            (List.mem_append_left _ (List.mem_of_mem_filter hf)) rfl
        · rw [forms_discover]
          exact hbegins
    have hleave (r : FormRuntime) (n : ℕ) : (leave h n id r).controls = r.controls ∧
        (leave h n id r).controlForms = r.controlForms := by
      rw [leave]
      split <;> exact ⟨rfl, rfl⟩
    rw [discover_succ, (hleave _ _).1, (hleave _ _).2]
    rw [walked, ← List.singleton_append, ← List.append_assoc] at heq
    rw [outerForms] at hbegins
    by_cases hform : isForm h id = true
    · rw [if_pos hform] at hbegins
      have hfilter : (before ++ [id]).filter (isForm h) = before.filter (isForm h) ++ [id] := by
        rw [List.filter_append, List.filter_cons, if_pos hform, List.filter_nil]
      rw [enter_of_isForm hform]
      refine hchildren _ _ (around ++ [id]) (before ++ [id]) after heq (fun c hc => ?_) ?_ ?_
        hruntime
      · rw [nearest_of_some hf.wf _ (hf.isParent_of_mem hc), if_pos hform, List.getLast?_concat]
      · rw [hfilter]
        exact hstanding.enter hnearest hbegins
      · exact fun haround => absurd haround
          (List.append_ne_nil_of_right_ne_nil _ (List.cons_ne_nil _ _))
    · rw [if_neg hform] at hbegins
      have hfilter : (before ++ [id]).filter (isForm h) = before.filter (isForm h) := by
        rw [List.filter_append, List.filter_cons, if_neg hform, List.filter_nil, List.append_nil]
      have hforms : (enter h runtime id).forms = runtime.forms := by
        rw [forms_enter, if_neg hform, List.append_nil]
      refine hchildren _ _ around (before ++ [id]) after heq (fun c hc => ?_) ?_ ?_ ?_
      · rw [nearest_of_some hf.wf _ (hf.isParent_of_mem hc), if_neg hform, hnearest]
      · rw [hfilter, hforms]
        exact hstanding
      · rw [hforms]
        exact hbegins
      · cases hcontrol : controlAt h id with
        | none =>
          rw [enter_of_none hform hcontrol]
          exact hruntime
        | some control =>
          rw [enter_of_some hcontrol]
          refine List.rel_append hruntime (.cons ?_ .nil)
          refine hR id control _ around before
            ((h.childrenOf id).flatMap (walked h depth) ++ after) ?_ hcontrol hstanding hnearest
          rw [heq, List.append_assoc, List.append_assoc]
          rfl

end Walk

/-! ## Owners -/

section Owners

variable (doc : Document)

/-- The nearest form around a node. -/
def enclosingForm (x : NodeId) : Option NodeId :=
  nearest (forest_document doc).wf (isForm doc.heap) x

/-- The last form that begins before a node. -/
def lastForm (x : NodeId) : Option NodeId :=
  ((doc.toTree.tree.preorder.takeWhile (· ≠ x)).filter (isForm doc.heap)).getLast?

/-- No form begins before the node, or the last one that does is the nearest around it and is
inside no other form. -/
def InLastForm (x : NodeId) : Prop :=
  ∀ f, lastForm doc x = some f → enclosingForm doc x = some f ∧ enclosingForm doc f = none

/-- **The owner of a control is the nearest form around it exactly under this condition.** -/
theorem forall₂_ofDocument :
    List.Forall₂
      (fun control owner =>
        owner.map ((FormRuntime.ofDocument doc).forms[·]?) =
            (enclosingForm doc control.node).map some ↔ InLastForm doc control.node)
      (FormRuntime.ofDocument doc).controls (FormRuntime.ofDocument doc).controlForms := by
  have hf := forest_document doc
  have hnodup := doc.toTree.nodup_preorder_tree
  have hwalked := walked_document doc
  have hroot : nearest hf.wf (isForm doc.heap) doc.root = none := nearest_of_none hf.wf _ doc.rootLink
  have hforms : (FormRuntime.ofDocument doc).forms =
      outerForms doc.heap doc.heap.next doc.root := by
    rw [FormRuntime.ofDocument, forms_discover, List.nil_append]
  have htop : (outerForms doc.heap doc.heap.next doc.root).Nodup := by
    refine List.Nodup.sublist (outerForms_sublist _ _) ?_
    rw [hwalked]
    exact hnodup
  rw [hforms]
  refine forall₂_discover (h := doc.heap) hf hnodup
    (outerForms doc.heap doc.heap.next doc.root) (fun id control marks around before after heq
    hcontrol hstanding hnearest => ?_) doc.heap.next doc.root {} [] [] [] ?_ hroot ?_ ?_ .nil
  · have hbegun : doc.toTree.tree.preorder.takeWhile (· ≠ id) = before := by
      rw [heq] at hnodup ⊢
      have hbefore : ∀ x ∈ before, decide (x ≠ id) = true := fun x hx => by
        rw [decide_eq_true_eq]
        rintro rfl
        exact (List.nodup_append.mp hnodup).2.2 x hx x List.mem_cons_self rfl
      rw [List.takeWhile_append_of_pos hbefore, List.takeWhile_cons, if_neg (by simp),
        List.append_nil]
    rw [node_of_controlAt hcontrol, InLastForm, lastForm, hbegun, enclosingForm, hnearest]
    exact hstanding.names_iff htop fun f hmem => nearest_of_mem_outerForms hf hroot hmem
  · rw [hwalked, List.nil_append, List.append_nil]
  · exact .outside List.nil_prefix (iff_of_true rfl rfl)
  · exact fun _ => List.prefix_rfl

/-- The same over the places in the lists, whatever has been done to the controls. -/
theorem owner_iff {runtime : FormRuntime} (hsame : (FormRuntime.ofDocument doc).SameMarkup runtime)
    {i : ℕ} {control : FormControlState} (hcontrol : runtime.controls[i]? = some control) :
    (runtime.formOwner i).map (runtime.forms[·]?) = (enclosingForm doc control.node).map some ↔
      InLastForm doc control.node := by
  have hmarkup := congrArg (·[i]?) hsame.controls
  rw [List.getElem?_map, List.getElem?_map, hcontrol, Option.map_some, eq_comm,
    Option.map_eq_some_iff] at hmarkup
  obtain ⟨found, hfound, hnode⟩ := hmarkup
  have hnode : found.node = control.node := congrArg (·.node) hnode
  obtain ⟨hlength, hall⟩ := List.forall₂_iff_get.mp (forall₂_ofDocument doc)
  obtain ⟨hi, hget⟩ := List.getElem?_eq_some_iff.mp hfound
  have hi' := hlength ▸ hi
  have hiff := hall i hi hi'
  rw [List.get_eq_getElem, List.get_eq_getElem, hget, hnode] at hiff
  rw [FormRuntime.formOwner, hsame.forms, hsame.controlForms, List.getD_eq_getElem?_getD,
    List.getElem?_eq_getElem hi', Option.getD_some]
  exact hiff

/-- The fields of a form, or those of the controls outside of all forms. -/
def formFields (runtime : FormRuntime) (form : Option NodeId) : List (Bytes × Bytes) :=
  (runtime.controls.filter fun control =>
    enclosingForm doc control.node = form ∧ isSuccessful control).map
      fun control => (control.name, control.value)

/-- The controls of the document are listed in document order; each is given to the nearest form
around it, a submission is made with the action and the method of that form, and its fields are
those of the controls that form is the nearest one around. -/
structure OwnersOk (runtime : FormRuntime) : Prop where
  controls : runtime.controls.map (·.markup) =
    (doc.toTree.tree.preorder.filterMap (controlAt doc.heap)).map (·.markup)
  owner : ∀ i control, runtime.controls[i]? = some control →
    (runtime.formOwner i).map (runtime.forms[·]?) = (enclosingForm doc control.node).map some
  target : ∀ i control h documentUrl submission, runtime.controls[i]? = some control →
    runtime.submit h i documentUrl = some (some submission) →
      FormRuntime.formTarget h documentUrl (enclosingForm doc control.node) =
        some (submission.action, submission.method)
  fields : ∀ i control, runtime.controls[i]? = some control →
    runtime.collectFields i = formFields doc runtime (enclosingForm doc control.node)

theorem nodup_forms_ofDocument : (FormRuntime.ofDocument doc).forms.Nodup := by
  rw [FormRuntime.ofDocument, forms_discover, List.nil_append]
  refine List.Nodup.sublist (outerForms_sublist _ _) ?_
  rw [walked_document]
  exact doc.toTree.nodup_preorder_tree

variable {doc}

/-- Owners that stand for the nearest forms give the right fields. -/
theorem collectFields_eq {runtime : FormRuntime} (hnodup : runtime.forms.Nodup)
    (howner : ∀ i control, runtime.controls[i]? = some control →
      (runtime.formOwner i).map (runtime.forms[·]?) = (enclosingForm doc control.node).map some)
    {i : ℕ} {control : FormControlState} (hcontrol : runtime.controls[i]? = some control) :
    runtime.collectFields i = formFields doc runtime (enclosingForm doc control.node) := by
  have hsame (j : ℕ) (c : FormControlState) (hc : runtime.controls[j]? = some c) :
      runtime.formOwner j = runtime.formOwner i ↔
        enclosingForm doc c.node = enclosingForm doc control.node := by
    have hj := howner j c hc
    have hi := howner i control hcontrol
    constructor
    · intro heq
      rw [heq, hi] at hj
      exact (Option.map_injective (Option.some_injective _) hj).symm
    · intro heq
      rw [heq, ← hi] at hj
      cases hform : enclosingForm doc control.node with
      | none =>
        rw [hform, Option.map_none, Option.map_eq_none_iff] at hi
        rw [hi, Option.map_none, Option.map_eq_none_iff] at hj
        rw [hi, hj]
      | some f =>
        rw [hform, Option.map_some, Option.map_eq_some_iff] at hi
        obtain ⟨a, ha, hfa⟩ := hi
        rw [ha, Option.map_some, Option.map_eq_some_iff] at hj
        obtain ⟨b, hb, hfb⟩ := hj
        have hlt := (List.getElem?_eq_some_iff.mp (hfb.trans hfa)).1
        rw [ha, hb, (List.getElem?_inj hlt hnodup).mp hfb]
  rw [FormRuntime.collectFields, formFields]
  have hfilter : (runtime.controls.zipIdx.filter fun entry =>
      decide (runtime.formOwner entry.2 = runtime.formOwner i ∧ isSuccessful entry.1)) =
        runtime.controls.zipIdx.filter ((fun c : FormControlState =>
          decide (enclosingForm doc c.node = enclosingForm doc control.node ∧ isSuccessful c)) ∘
            Prod.fst) := by
    refine List.filter_congr fun entry hentry => decide_eq_decide.mpr ?_
    exact and_congr_left' (hsame entry.2 entry.1 (List.mem_zipIdx_iff_getElem?.mp hentry))
  refine (congrArg (List.map fun entry => (entry.1.name, entry.1.value)) hfilter).trans ?_
  have hmap := congrArg (List.map fun c : FormControlState => (c.name, c.value))
    (List.filter_map (f := Prod.fst) (l := runtime.controls.zipIdx) (p := fun c : FormControlState =>
      decide (enclosingForm doc c.node = enclosingForm doc control.node ∧ isSuccessful c)))
  rw [List.zipIdx_map_fst, List.map_map] at hmap
  exact hmap.symm

variable (doc)

theorem sameMarkup_of_mem_scanl (run : List FormRuntime.FormOperation) :
    ∀ runtime ∈ run.scanl FormRuntime.formStep (FormRuntime.ofDocument doc),
      (FormRuntime.ofDocument doc).SameMarkup runtime :=
  Runs.forall_mem_scanl (P := fun _ _ => True)
    (fun _ operation h _ => h.trans (FormRuntime.effect_formStep operation).sameMarkup) (.refl _)
    (Runs.along_of_forall fun _ _ => trivial)

/-- **When the owners are right.**  In all states of every run, each control is given to the
nearest form around it and submitted with it, exactly if for every control of the document no
form begins before it, or the last one that does is the nearest around it and is inside no
other form. -/
theorem ownersOk_iff (run : List FormRuntime.FormOperation) :
    (∀ runtime ∈ run.scanl FormRuntime.formStep (FormRuntime.ofDocument doc),
      OwnersOk doc runtime) ↔
      ∀ x ∈ doc.toTree.tree.preorder, (controlAt doc.heap x).isSome → InLastForm doc x := by
  constructor
  · intro h x hx hcontrol
    obtain ⟨control, hcontrol⟩ := Option.isSome_iff_exists.mp hcontrol
    have hmem : control ∈ (FormRuntime.ofDocument doc).controls := by
      rw [controls_ofDocument]
      exact List.mem_filterMap.mpr ⟨x, hx, hcontrol⟩
    obtain ⟨i, hi⟩ := List.mem_iff_getElem?.mp hmem
    have hok := h _ (Runs.mem_scanl_self _ _)
    rw [← node_of_controlAt hcontrol]
    exact (owner_iff doc (.refl _) hi).mp (hok.owner i control hi)
  · intro h runtime hruntime
    have hsame := sameMarkup_of_mem_scanl doc run runtime hruntime
    have howner (i : ℕ) (control : FormControlState) (hcontrol : runtime.controls[i]? = some control) :
        (runtime.formOwner i).map (runtime.forms[·]?) =
          (enclosingForm doc control.node).map some := by
      refine (owner_iff doc hsame hcontrol).mpr ?_
      have hmarkup : control.markup ∈
          (doc.toTree.tree.preorder.filterMap (controlAt doc.heap)).map (·.markup) := by
        rw [← controls_ofDocument, ← hsame.controls]
        exact List.mem_map_of_mem (List.mem_of_getElem? hcontrol)
      obtain ⟨found, hfound, hnode⟩ := List.mem_map.mp hmarkup
      obtain ⟨x, hx, hfound⟩ := List.mem_filterMap.mp hfound
      have hnode : found.node = control.node := congrArg (·.node) hnode
      rw [← hnode, node_of_controlAt hfound]
      exact h x hx (by rw [hfound]; rfl)
    have hnodup : runtime.forms.Nodup := by
      rw [hsame.forms]
      exact nodup_forms_ofDocument doc
    refine ⟨by rw [hsame.controls, controls_ofDocument], howner, ?_, fun i control hcontrol =>
      collectFields_eq hnodup howner hcontrol⟩
    intro i control heap documentUrl submission hcontrol hsubmit
    obtain ⟨_, action, method, -, -, -, htarget, rfl⟩ :=
      FormRuntime.submit_eq_some_iff.mp hsubmit
    have hform : runtime.formOf (runtime.formOwner i) = enclosingForm doc control.node := by
      have heq := howner i control hcontrol
      rw [FormRuntime.formOf]
      cases hindex : runtime.formOwner i with
      | none =>
        rw [hindex, Option.map_none, eq_comm, Option.map_eq_none_iff] at heq
        rw [heq]
        rfl
      | some a =>
        rw [hindex, Option.map_some, eq_comm, Option.map_eq_some_iff] at heq
        obtain ⟨f, hf, heq⟩ := heq
        rw [hf, Option.bind_some, ← heq]
    rw [← hform]
    exact htarget

/-- A form, and a text control behind its end. -/
def closedForm : Document := Html.parseHtml (lit "<form></form><input>")

/-- The control is given to the form. -/
theorem not_ownersOk_closedForm :
    ¬ ∀ (doc : Document) (run : List FormRuntime.FormOperation),
      ∀ runtime ∈ run.scanl FormRuntime.formStep (FormRuntime.ofDocument doc),
        OwnersOk doc runtime := by
  intro h
  have hcontrol : (FormRuntime.ofDocument closedForm).controls[0]? =
      some { node := 2, kind := .text } := by decide +kernel
  have hgiven : ((FormRuntime.ofDocument closedForm).formOwner 0).map
      ((FormRuntime.ofDocument closedForm).forms[·]?) = some (some 1) := by decide +kernel
  have howner := (h closedForm [] _ (Runs.mem_scanl_self _ _)).owner 0 _ hcontrol
  have hparent : IsParent closedForm.heap.parentOf 0 2 :=
    show closedForm.heap.parentOf 2 = some 0 by decide +kernel
  have hroot : ¬ isForm closedForm.heap 0 = true := by decide +kernel
  rw [hgiven, enclosingForm, nearest_of_some _ _ hparent, if_neg hroot,
    nearest_of_none _ _ (by decide +kernel)] at howner
  cases howner

end Owners

end Aetheris.Session
