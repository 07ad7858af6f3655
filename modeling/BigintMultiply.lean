import BigintMultiply.Library.Checked
import BigintMultiply.Library.Vectors
import BigintMultiply.Library.Coefficients
import BigintMultiply.Library.Decimal
import BigintMultiply.Library.ForkJoin
import BigintMultiply.Library.Loops
import BigintMultiply.Library.Nesting
import BigintMultiply.Library.Choices
import BigintMultiply.Library.Numeral
import BigintMultiply.Library.Positions
import BigintMultiply.Library.Transitions
import BigintMultiply.Naive
import BigintMultiply.Utils
import BigintMultiply.Conversions
import BigintMultiply.SeqKaratsuba
import BigintMultiply.ParKaratsuba
import BigintMultiply.ParKaratsubaLengths
import BigintMultiply.SeqToomCook
import BigintMultiply.ParToomCook
import BigintMultiply.Strings
import BigintMultiply.ToomCookOverflow
import BigintMultiply.StringSchedules
import BigintMultiply.Operands
import BigintMultiply.TestMultiply
import BigintMultiply.TestRuns
import BigintMultiply.ParallelFor
import BigintMultiply.WorkStealingDeque
import BigintMultiply.Scheduler
import BigintMultiply.SchedulerProgress
import BigintMultiply.SchedulerDeques
import BigintMultiply.ParlayVectors
