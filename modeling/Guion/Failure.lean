import Guion.Node.Debug
import Guion.Node.Read
import Guion.Node.Source
import Guion.Token.Scan

/-!
# Failures

The causes for which reading or running a script fails, and the wording of those that the language
words itself.
-/

namespace Guion

inductive Failure where
  | illegal (fault : Token.Illegal)
  | grammar (fault : Node.Fault)
  | redeclared (name : String)
  | undeclared (name : String)
  | constantAssigned (name : String)
  | notCallable (type : String)
  | noProperties (type : String)
  | notNumbers (operator left right : String)
  | lengthOfNothing
  | noLength (type : String)
  | noSource (type : String)
  | badKey (type : String)
  | unconvertible (type : String)
  /-- A node for which the evaluator has no rule. -/
  | unsupported (node : Node)
  | badProperty (node : Node)
  | badTarget (kind : String)
  | unknownOperator (symbol : String)
  | unwritable (cause : Node.Unwritable)
  | numeric (fault : Num.Fault)
  | tooDeep (function : String)
  /-- The recursion limit of the host cannot be raised as far as the depth limit asks for. -/
  | noRoom
  /-- Endless printing met while a function of the script was running. -/
  | stackExhausted
  /-- A value that contains itself has no text. -/
  | endless
  /-- A tree built by hand that lacks a part which a rule reads. -/
  | malformed
  /-- A folder that has the name of a script. -/
  | notFile (path : String)
deriving DecidableEq, Repr

namespace Failure

/-- A failure whose message quotes a tree; a tree without a text fails for its digits. -/
def quoting (cause : Node → Failure) (node : Node) : Failure :=
  if node.debug?.isSome then cause node else .numeric .digits

/-- What holds of the failure that quotes and of that for the digits. -/
theorem holds_quoting {P : Failure → Prop} {cause : Node → Failure} {node : Node}
    (hcause : P (cause node)) (hdigits : P (.numeric .digits)) : P (quoting cause node) := by
  unfold quoting
  split
  · exact hcause
  · exact hdigits

def unwritableMessage? : Node.Unwritable → Option String
  | .foreign value => value.debug?.map fun text => "No se puede reconstruir el nodo " ++ text
  | .unknownOperator _ | .digits => none

def numericMessage? : Num.Fault → Option String
  | .divisionByZero => some "Division entre cero"
  | .moduloByZero => some "Modulo entre cero"
  | .outOfRange | .digits => none

/-- The wording of a failure; those of the host that a script lets through have none here. -/
def message? : Failure → Option String
  | .illegal fault =>
    some ("Caracter no reconocido en el codigo fuente: " ++ Text.escaped fault.char.toString ++
      " (linea " ++ Num.natText fault.place.line ++
      ", columna " ++ Num.natText fault.place.column ++ ")")
  | .grammar fault => fault.message?
  | .redeclared name => some ("No se puede declarar '" ++ name ++ "': ya existe en este ambito")
  | .undeclared name => some ("La variable '" ++ name ++ "' no esta declarada")
  | .constantAssigned name => some ("No se puede reasignar la constante '" ++ name ++ "'")
  | .notCallable type => some ("No se puede llamar a un valor de tipo " ++ type)
  | .noProperties type => some ("No se puede acceder a propiedades de un valor de tipo " ++ type)
  | .notNumbers operator left right =>
    some ("El operador '" ++ operator ++ "' requiere numeros, recibio " ++ left ++ " y " ++ right)
  | .lengthOfNothing => some "longitud requiere un argumento"
  | .noLength type => some ("longitud no se aplica a " ++ type)
  | .noSource type => some ("aCadena espera una funcion, recibio " ++ type)
  | .badKey type => some ("Una clave de propiedad debe ser numero o cadena, no " ++ type)
  | .unconvertible type => some ("No se puede convertir " ++ type ++ " a un valor Chispa")
  | .unsupported node =>
    node.debug?.map fun text => "Nodo no soportado por el evaluador: " ++ text
  | .badProperty node => node.debug?.map fun text => "Propiedad invalida: " ++ text
  | .badTarget kind => some ("Destino de asignacion invalido: " ++ kind)
  | .unknownOperator symbol => some ("Operador desconocido '" ++ symbol ++ "'")
  | .unwritable cause => unwritableMessage? cause
  | .numeric fault => numericMessage? fault
  | .tooDeep function => some ("Profundidad maxima de llamadas excedida en " ++ function)
  | .stackExhausted => some "Pila de llamadas agotada"
  | .noRoom | .endless | .malformed | .notFile _ => none

end Failure

end Guion
