import MachineAbi.Source.Storage

/-!
# Values behind a pointer

Aggregates are kept in memory and handled by reference; scalars, pointers, vectors and packed containers are handled as
they are. The internal calling convention follows `SealedPool.isByReference` alone.
-/

namespace MachineAbi

namespace SealedPool

/-- Whether values of type `t` are handled through a pointer. -/
def isByReference (P : SealedPool) (t : TypeId) : Bool :=
  match _h : P.get t with
  | .array _ _ _ | .tuple _ => P.takesRoom t
  | .struct s => !s.isPacked && P.takesRoom t
  | .union u => !u.isPacked && P.takesRoom t
  | .optional child =>
    match P.optionalRepr child with
    | .flagOnly => false
    | .payload => P.isByReference child
    | .payloadAndFlag => true
  | .errorUnion set payload =>
    if P.takesRoom payload then if P.takesRoom set then true else P.isByReference payload else false
  | _ => false
termination_by P.rank t
decreasing_by
  all_goals refine P.rank_lt_of_get _h ?_
  · simp [Ty.parts]
  · simp [Ty.parts]

theorem isByReference_eq (P : SealedPool) (t : TypeId) :
    P.isByReference t =
      match P.get t with
      | .array _ _ _ | .tuple _ => P.takesRoom t
      | .struct s => !s.isPacked && P.takesRoom t
      | .union u => !u.isPacked && P.takesRoom t
      | .optional child =>
        match P.optionalRepr child with
        | .flagOnly => false
        | .payload => P.isByReference child
        | .payloadAndFlag => true
      | .errorUnion set payload => P.takesRoom payload && (P.takesRoom set || P.isByReference payload)
      | _ => false := by
  rw [isByReference]
  split <;> rename_i h <;> simp [h]

end SealedPool

end MachineAbi
