import Lpmud.Arrays.Names
import Lpmud.Arrays.Unique
import Lpmud.CallOut.Timeout
import Lpmud.Closure.Law
import Lpmud.Combat.Equipment
import Lpmud.Combat.Heart
import Lpmud.Combat.Hitlocs
import Lpmud.Combat.Panic
import Lpmud.Combat.Targets
import Lpmud.Commands.Sweep
import Lpmud.Compiler.Constants
import Lpmud.Compiler.Inherits
import Lpmud.Compiler.Labels
import Lpmud.Compiler.LineNumbers
import Lpmud.Compiler.Records
import Lpmud.Containers.Capacity
import Lpmud.Containment.Safety
import Lpmud.Functions.Search
import Lpmud.Heaps.Conservation
import Lpmud.Interpret.Catch
import Lpmud.Interpret.Compound
import Lpmud.Interpret.Cost
import Lpmud.Interpret.Destructed
import Lpmud.Interpret.Errors
import Lpmud.Lex.Evaluate
import Lpmud.Lex.Faithful
import Lpmud.Lex.Literals
import Lpmud.Lex.Merge
import Lpmud.Living.Redistribution
import Lpmud.Loading.ObjectNames
import Lpmud.Mapping.Arithmetic
import Lpmud.Mstring
import Lpmud.Ndesc
import Lpmud.Nqueue.Fifo
import Lpmud.Object.Refine
import Lpmud.Parse.NumeralGrammar
import Lpmud.Parse.Selection
import Lpmud.Secure.Authority
import Lpmud.Secure.Fairness
import Lpmud.Secure.Private
import Lpmud.Secure.Runs
import Lpmud.Secure.Spelling
import Lpmud.Service.Pairing
import Lpmud.Snoop
import Lpmud.Sprintf.Bounds
import Lpmud.Sprintf.Lines
import Lpmud.Sscanf.Literal
import Lpmud.Strings.Bits
import Lpmud.Strings.Break
import Lpmud.Strings.Process
import Lpmud.Strings.Range
import Lpmud.Swap.Store
import Lpmud.Swap.Values
import Lpmud.Telnet.Agreement
import Lpmud.Telnet.Lines
import Lpmud.Telnet.Overflow
import Lpmud.Telnet.Wakeup
import Lpmud.Trade.Exchange
