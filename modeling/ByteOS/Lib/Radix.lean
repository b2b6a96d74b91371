import Mathlib.Data.List.Infix
import Mathlib.Data.List.Nodup
import Mathlib.Data.Option.Basic
import Mathlib.Logic.Function.Basic

/-! Multi-level tables in a memory of nodes.

A node is an array of entries, and `child` reads an entry as a link to a node of
the next level. Nodes are named by a root and the path of indices that leads to
them. `Separate` says that within a domain of paths no node has two names; it is
what makes a write to one node invisible on all other paths.
-/

set_option autoImplicit false

namespace ByteOS.Lib

open Function (update update_of_ne)

variable {A I E : Type}

section Walk
variable (child : E → Option A) (mem : A → I → E)

def walk (root : A) (path : List I) : Option A := path.foldlM (fun a i => child (mem a i)) root

/-- The entry at an index of the node that a path leads to, `zero` if there is none. -/
def lookup (zero : E) (root : A) (path : List I) (i : I) : E :=
  match walk child mem root path with
  | none => zero
  | some a => mem a i

@[simp] theorem walk_nil (root : A) : walk child mem root [] = some root := rfl

theorem walk_cons (root : A) (i : I) (path : List I) :
    walk child mem root (i :: path) = (child (mem root i)).bind fun a => walk child mem a path := rfl

theorem walk_append (root : A) (path rest : List I) :
    walk child mem root (path ++ rest) =
      (walk child mem root path).bind fun a => walk child mem a rest := by
  simp [walk, List.foldlM_append]

theorem walk_snoc (root : A) (path : List I) (i : I) :
    walk child mem root (path ++ [i]) = (walk child mem root path).bind fun a => child (mem a i) := by
  rw [walk_append]
  cases walk child mem root path with
  | none => rfl
  | some a => simp [walk_cons]

end Walk

variable {child : E → Option A} {mem mem' : A → I → E}
variable {path' path : List I} {node : I → E} {zero : E}

theorem walk_frame {root : A}
    (agree : ∀ before i b, before ++ [i] <+: path → walk child mem root before = some b →
      child (mem' b i) = child (mem b i)) : walk child mem' root path = walk child mem root path := by
  induction path using List.reverseRecOn with
  | nil => rfl
  | append_singleton path i ih =>
    have shorter := ih fun before j b front reached =>
      agree before j b (front.trans (List.prefix_append path [i])) reached
    rw [walk_snoc, walk_snoc, shorter]
    cases reached : walk child mem root path with
    | none => rfl
    | some b => exact agree path i b (List.prefix_refl _) reached

/-- The domains of paths considered: with a path they contain what leads to it. -/
def PrefixClosed (dom : A → List I → Prop) : Prop :=
  ∀ r before path, before <+: path → dom r path → dom r before

def Separate (child : E → Option A) (mem : A → I → E) (dom : A → List I → Prop) : Prop :=
  ∀ r path r' path' a, dom r path → dom r' path' → walk child mem r path = some a →
    walk child mem r' path' = some a → r = r' ∧ path = path'

theorem Separate.mono {dom dom' : A → List I → Prop} (separate : Separate child mem dom)
    (fewer : ∀ r path, dom' r path → dom r path) : Separate child mem dom' :=
  fun r path r' path' a inside inside' =>
    separate r path r' path' a (fewer r path inside) (fewer r' path' inside')

theorem walk_blank {c : A} (blank : ∀ i, child (mem c i) = none) (nonempty : path ≠ []) :
    walk child mem c path = none := by
  cases path with
  | nil => exact absurd rfl nonempty
  | cons i rest => rw [walk_cons, blank i]; rfl

variable {dom : A → List I → Prop} [DecidableEq A] [DecidableEq I]

def writeEntry (mem : A → I → E) (a : A) (i : I) (e : E) : A → I → E :=
  update mem a (update (mem a) i e)

theorem writeEntry_self (mem : A → I → E) (a : A) (i : I) (e : E) : writeEntry mem a i e a i = e := by
  simp [writeEntry]

theorem writeEntry_of_ne {a b : A} {i j : I} (mem : A → I → E) (e : E) (other : ¬ (b = a ∧ j = i)) :
    writeEntry mem a i e b j = mem b j := by
  by_cases node : b = a
  · subst node
    have index : j ≠ i := fun same => other ⟨rfl, same⟩
    simp [writeEntry, index]
  · simp [writeEntry, node]

variable {r r' : A}

section

variable (separate : Separate child mem dom) (closed : PrefixClosed dom) (inside : dom r path)
variable {a c : A} {i j : I} {e : E} (reached : walk child mem r path = some a)
include separate closed inside reached

theorem Separate.walk_write (inside' : dom r' path') (avoids : ¬ (r' = r ∧ path ++ [i] <+: path')) :
    walk child (writeEntry mem a i e) r' path' = walk child mem r' path' := by
  apply walk_frame
  intro before j b front found
  rw [writeEntry_of_ne]
  rintro ⟨rfl, rfl⟩
  have shorter : before <+: path' := (List.prefix_append before [j]).trans front
  obtain ⟨rfl, rfl⟩ :=
    separate r path r' before b inside (closed r' before path' shorter inside') reached found
  exact avoids ⟨rfl, front⟩

section

variable (absent : child (mem a i) = none) (link : child e = some c)
    (fresh : ∀ r path, dom r path → walk child mem r path ≠ some c)
include absent link fresh

theorem Separate.walk_install (inside' : dom r' path') (blank : ∀ j, child (node j) = none) :
    walk child (update (writeEntry mem a i e) c node) r' path' =
      if r' = r ∧ path' = path ++ [i] then some c else walk child mem r' path' := by
  have apart : a ≠ c := by
    rintro rfl
    exact fresh r path inside reached
  -- one step below the entry written there was nothing, so nothing was below it
  have below : ∀ rest, walk child mem r (path ++ [i] ++ rest) = none := by
    intro rest
    rw [walk_append, walk_snoc, reached]
    simp [absent]
  have elsewhere : ∀ r' path', dom r' path' → ¬ (r' = r ∧ path ++ [i] <+: path') →
      walk child (update (writeEntry mem a i e) c node) r' path' = walk child mem r' path' := by
    intro r' path' inside' avoids
    apply walk_frame
    intro before j b front found
    have shorter : before <+: path' := (List.prefix_append before [j]).trans front
    have other : b ≠ c := by
      rintro rfl
      exact fresh r' before (closed r' before path' shorter inside') found
    rw [update_of_ne other, writeEntry_of_ne]
    rintro ⟨rfl, rfl⟩
    obtain ⟨rfl, rfl⟩ :=
      separate r path r' before b inside (closed r' before path' shorter inside') reached found
    exact avoids ⟨rfl, front⟩
  have above : walk child (update (writeEntry mem a i e) c node) r path = some a := by
    rw [elsewhere r path inside ?_, reached]
    rintro ⟨-, front⟩
    have := front.length_le
    simp only [List.length_append, List.length_singleton] at this
    omega
  have here : walk child (update (writeEntry mem a i e) c node) r (path ++ [i]) = some c := by
    rw [walk_snoc, above, Option.bind_some, update_of_ne apart, writeEntry_self, link]
  split
  case isTrue named =>
    obtain ⟨rfl, rfl⟩ := named
    exact here
  case isFalse other =>
    by_cases through : r' = r ∧ path ++ [i] <+: path'
    · obtain ⟨rfl, rest, rfl⟩ := through
      have deeper : rest ≠ [] := by
        rintro rfl
        exact other ⟨rfl, by simp⟩
      rw [below rest, walk_append, here, Option.bind_some]
      exact walk_blank (by simpa using blank) deeper
    · exact elsewhere r' path' inside' through

theorem Separate.install (blank : ∀ j, child (node j) = none) :
    Separate child (update (writeEntry mem a i e) c node) dom := by
  intro r₁ path₁ r₂ path₂ b inside₁ inside₂ first second
  rw [separate.walk_install closed inside reached absent link fresh inside₁ blank] at first
  rw [separate.walk_install closed inside reached absent link fresh inside₂ blank] at second
  split at first <;> split at second
  case isTrue.isTrue named₁ named₂ => exact ⟨named₁.1.trans named₂.1.symm, named₁.2.trans named₂.2.symm⟩
  case isTrue.isFalse => exact absurd second (Option.some.inj first ▸ fresh r₂ path₂ inside₂)
  case isFalse.isTrue => exact absurd first (Option.some.inj second ▸ fresh r₁ path₁ inside₁)
  case isFalse.isFalse => exact separate r₁ path₁ r₂ path₂ b inside₁ inside₂ first second

theorem Separate.lookup_install (inside' : dom r' path') (blank : child zero = none)
    (other : ¬ (r' = r ∧ path' = path ∧ j = i)) :
    lookup child (update (writeEntry mem a i e) c fun _ => zero) zero r' path' j =
      lookup child mem zero r' path' j := by
  unfold lookup
  rw [separate.walk_install closed inside reached absent link fresh inside' fun _ => blank]
  split_ifs with named
  · obtain ⟨rfl, rfl⟩ := named
    rw [walk_snoc, reached, Option.bind_some, absent]
    simp
  · cases found : walk child mem r' path' with
    | none => rfl
    | some b =>
      have apart : b ≠ c := by
        rintro rfl
        exact fresh r' path' inside' found
      simp only [update_of_ne apart]
      apply writeEntry_of_ne
      rintro ⟨rfl, rfl⟩
      obtain ⟨rfl, rfl⟩ := separate r path r' path' b inside inside' reached found
      exact other ⟨rfl, rfl, rfl⟩

end

theorem Separate.lookup_write (inside' : dom r' path') (avoids : ¬ (r' = r ∧ path ++ [i] <+: path')) :
    lookup child (writeEntry mem a i e) zero r' path' j =
      if r' = r ∧ path' = path ∧ j = i then e else lookup child mem zero r' path' j := by
  unfold lookup
  rw [separate.walk_write closed inside reached inside' avoids]
  split_ifs with named
  · obtain ⟨rfl, rfl, rfl⟩ := named
    simp [reached, writeEntry_self]
  · cases found : walk child mem r' path' with
    | none => rfl
    | some b =>
      apply writeEntry_of_ne
      rintro ⟨rfl, rfl⟩
      obtain ⟨rfl, rfl⟩ := separate r path r' path' b inside inside' reached found
      exact named ⟨rfl, rfl, rfl⟩

theorem Separate.write (avoids : ∀ r' path', dom r' path' → ¬ (r' = r ∧ path ++ [i] <+: path')) :
    Separate child (writeEntry mem a i e) dom := by
  intro r₁ path₁ r₂ path₂ b inside₁ inside₂ first second
  rw [separate.walk_write closed inside reached inside₁ (avoids r₁ path₁ inside₁)] at first
  rw [separate.walk_write closed inside reached inside₂ (avoids r₂ path₂ inside₂)] at second
  exact separate r₁ path₁ r₂ path₂ b inside₁ inside₂ first second

end

end ByteOS.Lib
